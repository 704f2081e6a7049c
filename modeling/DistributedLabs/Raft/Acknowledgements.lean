import DistributedLabs.Raft.Simulation
import DistributedLabs.Raft.Uncompacted

/-!
# Replication acknowledgements are truthful

While a leader is in office, an entry of `matchIndex` only moves to what the peer
has acknowledged in the ledger, and a peer that has acknowledged a part of the log
of the leader holds it as long as it stays in the term. Snapshots are allowed,
under the condition `snapshotSafe`: the loop of `InstallSnapshot` compares the term
of slot 0 where it should compare the term of the entry at the snapshot point, and
a peer that overtakes the snapshot can lose entries that it has acknowledged.
-/

namespace DistributedLabs

namespace Raft

open Consensus

variable {n : ℕ} {Cmd : Type*} {c c' : Cluster n Cmd} {st st' : Book n Cmd}

/-- An update of `matchIndex` with the maximum keeps it or moves it to the new
value. -/
theorem update_max_cases (f : Fin n → ℕ) (p q : Fin n) (k : ℕ) :
    Function.update f p (max (f p) k) q = f q ∨
      (q = p ∧ Function.update f p (max (f p) k) q = k) := by
  by_cases hq : q = p
  · subst hq
    rw [Function.update_self]
    rcases max_choice (f q) k with h | h
    · exact Or.inl h
    · exact Or.inr ⟨rfl, h⟩
  · exact Or.inl (Function.update_of_ne hq _ _)

/-! ## What the steps of a leader do to `matchIndex` -/

section

variable {rf rf' : Raft n Cmd}

theorem start_matchIndex (hlead : rf.state = .leader) (command : Option Cmd) (p : Fin n) :
    (rf.start command).1.matchIndex p = rf.matchIndex p ∨
      (p = rf.me ∧ (rf.start command).1.matchIndex p = (rf.start command).1.lastLogIndex) := by
  rcases start_cases rf command with ⟨hnot, -⟩ | ⟨-, rf₁, rfl, he⟩
  · exact absurd hlead hnot
  · rw [he]
    by_cases hp : p = rf.me
    · subst hp
      refine Or.inr ⟨rfl, ?_⟩
      simp [lastLogIndex_eq, Logs.push, Raft.persist, Nat.add_assoc]
    · exact Or.inl (Function.update_of_ne hp _ _)

theorem installSnapshot_matchIndex (args : InstallSnapshotArgs n) :
    (rf.installSnapshot args).1.matchIndex = rf.matchIndex := by
  have hadopt : (rf.adoptTerm args.term).matchIndex = rf.matchIndex := by
    obtain ⟨_, _, he⟩ := adoptTerm_frame rf args.term
    rw [he]
  rcases installSnapshot_cases rf args with ⟨-, he⟩ | ⟨-, -, he⟩ | ⟨-, -, -, he⟩
  · rw [he]
  · rw [he]
    exact hadopt
  · rw [he]
    exact hadopt

/-- A leader that stays in its term takes no notice of votes. -/
theorem handleVoteReply_of_leader {args : RequestVoteArgs n} {reply : RequestVoteReply}
    {out : List (Outgoing n Cmd)} (h : rf.handleVoteReply args reply = some (rf', out))
    (hlead : rf.state = .leader) (hterm : rf'.currentTerm = rf.currentTerm) : rf' = rf := by
  rcases handleVoteReply_cases h with ⟨rfl, -⟩ | ⟨hlt, -, rfl⟩ | ⟨-, hcand, -⟩ | ⟨-, hcand, -⟩
  · rfl
  · exact absurd hterm hlt.ne'
  · cases hlead.symm.trans hcand
  · cases hlead.symm.trans hcand

theorem handleSendAppendEntries_matchIndex {peer : Fin n} {args : AppendEntriesArgs n Cmd}
    {reply : AppendEntriesReply} (h : rf.handleSendAppendEntries peer args reply = some rf')
    (hterm : rf'.currentTerm = rf.currentTerm) (p : Fin n) :
    rf'.matchIndex p = rf.matchIndex p ∨
      (p = peer ∧ args.term = rf.currentTerm ∧ reply.success = true ∧
        rf'.matchIndex p = args.prevLogIndex + args.entries.length) := by
  rcases handleSendAppendEntries_cases h with
    rfl | ⟨-, -, hlt, rfl⟩ | ⟨ht, -, hsucc, hcommit⟩ | ⟨-, -, -, rfl⟩
  · exact Or.inl rfl
  · exact absurd hterm hlt.ne'
  · obtain ⟨N, rfl⟩ := checkAndCommitLogs_eq hcommit
    rcases update_max_cases rf.matchIndex peer p
      (args.prevLogIndex + args.entries.length) with hm | ⟨hp, hm⟩
    · exact Or.inl hm
    · exact Or.inr ⟨hp, ht.symm, hsucc, hm⟩
  · exact Or.inl rfl

theorem handleSendInstallSnapshot_matchIndex (peer : Fin n) (args : InstallSnapshotArgs n)
    (reply : InstallSnapshotReply)
    (hterm : (rf.handleSendInstallSnapshot peer args reply).currentTerm = rf.currentTerm)
    (p : Fin n) :
    (rf.handleSendInstallSnapshot peer args reply).matchIndex p = rf.matchIndex p ∨
      (p = peer ∧ args.term = rf.currentTerm ∧ reply.term ≤ rf.currentTerm ∧
        (rf.handleSendInstallSnapshot peer args reply).matchIndex p = args.lastIncludedIndex) := by
  rcases handleSendInstallSnapshot_cases rf peer args reply with
    he | ⟨-, -, hlt, he⟩ | ⟨ht, -, hrt, he⟩
  · rw [he]
    exact Or.inl rfl
  · rw [he] at hterm
    exact absurd hterm hlt.ne'
  · rw [he]
    rcases update_max_cases rf.matchIndex peer p args.lastIncludedIndex with hm | ⟨hp, hm⟩
    · exact Or.inl hm
    · exact Or.inr ⟨hp, ht.symm, hrt, hm⟩

end

/-- While a leader stays in its term, an entry of its `matchIndex` stays or moves
to what the peer has acknowledged. -/
theorem Refines.matchIndex_step (h : Refines c st) (h' : Refines c' st') (hle : st ≤ st')
    {a : Cluster.Act n Cmd} (hs : c.step a = some c') (hrestart : ∀ i, a ≠ .restart i)
    {L : Fin n} (hlead : (c.peers L).rf.state = .leader)
    (hlead' : (c'.peers L).rf.state = .leader)
    (hterm : (c'.peers L).rf.currentTerm = (c.peers L).rf.currentTerm) (p : Fin n) :
    (c'.peers L).rf.matchIndex p = (c.peers L).rf.matchIndex p ∨
      st'.acked p (c.peers L).rf.currentTerm ((c'.peers L).rf.matchIndex p) := by
  have hrel := h'.peers L
  rcases Cluster.step_peer hs L with heq | ⟨rfl, -⟩ | ⟨b, harrives, hb⟩
  · exact Or.inl (by rw [heq])
  · exact absurd rfl (hrestart L)
  generalize c'.peers L = q at hb hterm hlead' hrel ⊢
  cases b with
  | ticker =>
      obtain rfl := Option.some.inj hb
      exact absurd hterm (Nat.succ_ne_self _)
  | heartbeat =>
      obtain ⟨out, -, rfl⟩ := Option.map_eq_some_iff.mp hb
      exact Or.inl rfl
  | start command =>
      obtain rfl := Option.some.inj hb
      rcases start_matchIndex hlead command p with hm | ⟨hp, hm⟩
      · exact Or.inl hm
      · -- the leader acknowledges its own log
        obtain rfl : p = L := hp.trans (h.ballots.me L)
        have hown := hrel.own hlead'
        rw [hterm] at hown
        exact Or.inr ((hm.trans hrel.log.lastLogIndex) ▸ hown)
  | snapshot index data =>
      obtain ⟨rf, hrf, rfl⟩ := Option.map_eq_some_iff.mp hb
      rcases snapshotUpTo_cases hrf with rfl | ⟨-, -, entry, -, rfl⟩ <;> exact Or.inl rfl
  | requestVote args =>
      obtain rfl := Option.some.inj hb
      obtain ⟨_, _, _, _, he⟩ := requestVote_frame (c.peers L).rf args
      exact Or.inl (by rw [Peer.setRf, he])
  | appendEntries args =>
      obtain ⟨⟨rf, reply⟩, hrf, rfl⟩ := Option.map_eq_some_iff.mp hb
      obtain ⟨_, _, _, _, _, _, rfl⟩ := appendEntries_frame hrf
      exact Or.inl rfl
  | installSnapshot args =>
      obtain rfl := Option.some.inj hb
      exact Or.inl (congrFun (installSnapshot_matchIndex args) p)
  | voteReply args reply =>
      obtain ⟨⟨rf, out⟩, hrf, rfl⟩ := Option.map_eq_some_iff.mp hb
      obtain rfl := handleVoteReply_of_leader hrf hlead hterm
      exact Or.inl rfl
  | appendReply peer args reply =>
      obtain ⟨rf, hrf, rfl⟩ := Option.map_eq_some_iff.mp hb
      obtain ⟨r, hr, -, rfl, rfl, hreply⟩ := harrives
      rcases handleSendAppendEntries_matchIndex hrf hterm p with hm | ⟨rfl, ht, hsucc, hm⟩
      · exact Or.inl hm
      · have hack := hle.acked ((h.appends r hr).success reply hreply hsucc)
        rw [ht, ← hm] at hack
        exact Or.inr hack
  | snapshotReply peer args reply =>
      obtain rfl := Option.some.inj hb
      obtain ⟨r, hr, -, rfl, rfl, hreply⟩ := harrives
      rcases handleSendInstallSnapshot_matchIndex r.dst r.args reply hterm p with
        hm | ⟨rfl, ht, hrt, hm⟩
      · exact Or.inl hm
      · have hack := hle.acked ((h.installs r hr).success reply hreply (hrt.trans ht.ge))
        rw [ht, ← hm] at hack
        exact Or.inr hack
  | applier =>
      obtain ⟨-, -, _, _, hrf⟩ := Peer.applierStep_frame hb
      exact Or.inl (by rw [hrf])
  | poll k =>
      obtain ⟨sender, -, -, rfl⟩ := Peer.pollStep_eq_some.mp hb
      exact Or.inl rfl
  | send k =>
      obtain ⟨sender, -, -, rfl⟩ := Peer.sendStep_eq_some.mp hb
      exact Or.inl rfl

/-! ## Whole runs -/

/-- Since the peer `L` led the term `t` with `matchIndex` at `m` for the peer `p`, it
has left the term, or `matchIndex` is still at `m` or at something `p` has
acknowledged. -/
structure Tracks (L p : Fin n) (t m : ℕ) (c : Cluster n Cmd) (st : Book n Cmd) : Prop where
  refines : Refines c st
  term : t ≤ (c.peers L).rf.currentTerm
  tracked : (c.peers L).rf.currentTerm = t → (c.peers L).rf.state = .leader ∧
    ((c.peers L).rf.matchIndex p = m ∨ st.acked p t ((c.peers L).rf.matchIndex p))

theorem Tracks.step {L p : Fin n} {t m : ℕ} (h : Tracks L p t m c st)
    {a : Cluster.Act n Cmd} (hok : (∀ i, a ≠ .restart i) ∧ snapshotSafe c a)
    (hs : c.step a = some c') : ∃ st', st ≤ st' ∧ Tracks L p t m c' st' := by
  obtain ⟨st', hle, h'⟩ := h.refines.step hok hs
  have hmono : (c.peers L).rf.currentTerm ≤ (c'.peers L).rf.currentTerm := by
    rw [(h.refines.peers L).term, (h'.peers L).term]
    exact hle.term L
  refine ⟨st', hle, h', h.term.trans hmono, fun hterm' => ?_⟩
  have hterm : (c.peers L).rf.currentTerm = t := le_antisymm (hterm' ▸ hmono) h.term
  obtain ⟨hlead, htracked⟩ := h.tracked hterm
  -- a leader stays the leader of its term in the ledger, hence in the cluster
  have hlead' : (c'.peers L).rf.state = .leader := by
    have hleads := hle.leads ((h.refines.peers L).leader.mp hlead)
    rw [hterm, ← hterm'] at hleads
    exact (h'.peers L).leader.mpr hleads
  refine ⟨hlead', ?_⟩
  rcases h.refines.matchIndex_step h' hle hs hok.1 hlead hlead' (hterm'.trans hterm.symm) p with
    hm | hack
  · rw [hm]
    exact htracked.imp_right hle.acked
  · exact Or.inr (hterm ▸ hack)

/-- What a peer has acknowledged to the leader of its term is in its log. -/
theorem Refines.acked_entries (h : Refines c st) {L p : Fin n} {m : ℕ}
    (hlead : (c.peers L).rf.state = .leader)
    (hp : (c.peers p).rf.currentTerm = (c.peers L).rf.currentTerm)
    (hack : st.acked p (c.peers L).rf.currentTerm m) :
    m ≤ (c.peers p).rf.lastLogIndex ∧
      ∀ k, max (c.peers L).rf.lastIncludedIndex (c.peers p).rf.lastIncludedIndex < k → k ≤ m →
        (c.peers p).rf.entryAt? k = (c.peers L).rf.entryAt? k := by
  have hL := h.peers L
  have hP := h.peers p
  have hown : st.log L = st.lead (c.peers L).rf.currentTerm := by
    have hleads := hL.leader.mp hlead
    rw [hL.term] at hleads ⊢
    exact h.inv.logs.own hleads
  have hlen := h.inv.acks.length_le hack
  have hholds : (st.log L).take m <+: st.log p := by
    rw [hown, ← hp, hP.term]
    rw [← hp, hP.term] at hack
    exact h.inv.acks.current hack
  rw [← hown] at hlen
  have hmlen : ((st.log L).take m).length = m := List.length_take_of_le hlen
  refine ⟨?_, fun k hk hkm => ?_⟩
  · rw [hP.log.lastLogIndex, ← hmlen]
    exact hholds.length_le
  · obtain ⟨hkL, hkp⟩ := max_lt_iff.mp hk
    obtain ⟨j, rfl⟩ : ∃ j, k = j + 1 := ⟨k - 1, by omega⟩
    rw [hL.log.entryAt?_succ (Nat.lt_succ_iff.mp hkL),
      hP.log.entryAt?_succ (Nat.lt_succ_iff.mp hkp)]
    obtain ⟨rest, hrest⟩ := hholds
    rw [← hrest, List.getElem?_append_left (by omega), List.getElem?_take_of_lt hkm]

/-- In a run without restarts whose `InstallSnapshot` tests are right, a value of
`matchIndex` that has moved while `L` leads a term, since its election for
instance, is truthful: the peer, if it is in the same term, holds every entry up
to it. -/
theorem matchIndex_truthful {before after : List (Cluster.Act n Cmd)} {c₁ c₂ : Cluster n Cmd}
    (h₁ : exec Cluster.step (Cluster.init n Cmd) before = some c₁)
    (h₂ : exec Cluster.step c₁ after = some c₂)
    (hrestart : ∀ a ∈ before ++ after, a.isRestart = false)
    (hsafe : meets Cluster.step snapshotSafe (Cluster.init n Cmd) (before ++ after))
    {L p : Fin n} (hL₁ : (c₁.peers L).rf.state = .leader)
    (hL₂ : (c₂.peers L).rf.state = .leader)
    (hterm : (c₂.peers L).rf.currentTerm = (c₁.peers L).rf.currentTerm)
    (hmatch : (c₁.peers L).rf.matchIndex p < (c₂.peers L).rf.matchIndex p)
    (hp : (c₂.peers p).rf.currentTerm = (c₂.peers L).rf.currentTerm) :
    (c₂.peers L).rf.matchIndex p ≤ (c₂.peers p).rf.lastLogIndex ∧
      ∀ k, max (c₂.peers L).rf.lastIncludedIndex (c₂.peers p).rf.lastIncludedIndex < k →
        k ≤ (c₂.peers L).rf.matchIndex p →
        (c₂.peers p).rf.entryAt? k = (c₂.peers L).rf.entryAt? k := by
  have hok : meets Cluster.step (fun c a => (∀ i, a ≠ .restart i) ∧ snapshotSafe c a)
      (Cluster.init n Cmd) (before ++ after) := by
    refine meets_and (meets_of_forall _ fun a ha i => ?_) hsafe
    rintro rfl
    exact nomatch hrestart _ ha
  obtain ⟨hok₁, hok₂⟩ := (meets_append h₁).mp hok
  obtain ⟨st₁, -, hr₁⟩ := exec_simulation (fun _ _ _ _ h ha hs => Refines.step h ha hs)
    (refines_init n Cmd) hok₁ h₁
  have htracks : Tracks L p (c₁.peers L).rf.currentTerm ((c₁.peers L).rf.matchIndex p) c₁ st₁ :=
    ⟨hr₁, le_rfl, fun _ => ⟨hL₁, Or.inl rfl⟩⟩
  obtain ⟨st₂, -, hr₂⟩ := exec_simulation (fun _ _ _ _ h ha hs => Tracks.step h ha hs)
    htracks hok₂ h₂
  rcases (hr₂.tracked hterm).2 with hm | hack
  · exact absurd hm hmatch.ne'
  · exact hr₂.refines.acked_entries hL₂ hp (hterm ▸ hack)

/-- Peer 0 is elected in term 1. -/
def electZero : List (Cluster.Act 3 ℕ) := [.ticker 0, .requestVote 0, .voteReply 0]

/-- Peer 0 commits the commands 7 and 8 with peer 1, delivers the first one,
compacts its log up to it and offers the snapshot to peer 2. -/
def offerSnapshot : List (Cluster.Act 3 ℕ) :=
  [.start 0 (some 7), .start 0 (some 8), .heartbeat 0, .appendEntries 2, .appendReply 2,
    .applier 0, .applier 0, .applier 0, .snapshot 0 1 [], .heartbeat 0]

/-- Peer 2 installs the snapshot and then receives the command 8. -/
def snapshotFirst : List (Cluster.Act 3 ℕ) :=
  [.installSnapshot 0, .snapshotReply 0, .heartbeat 0, .appendEntries 6, .appendReply 6]

theorem matchIndex_truthful_snapshotFirst :
    ∃ c₁ c₂, exec Cluster.step (Cluster.init 3 ℕ) electZero = some c₁ ∧
      exec Cluster.step c₁ (offerSnapshot ++ snapshotFirst) = some c₂ ∧
      (c₂.peers 2).rf.lastIncludedIndex = 1 ∧ (c₂.peers 0).rf.matchIndex 2 = 2 ∧
      (c₂.peers 0).rf.matchIndex 2 ≤ (c₂.peers 2).rf.lastLogIndex :=
  ⟨_, _, rfl, rfl, by decide, by decide,
    (matchIndex_truthful (show exec Cluster.step (Cluster.init 3 ℕ) electZero = some _ from rfl)
      (show exec Cluster.step _ (offerSnapshot ++ snapshotFirst) = some _ from rfl)
      (by decide) (by decide) (by decide) (by decide) (by decide) (by decide) (by decide)).1⟩

/-- Peer 2 acknowledges an earlier request that carries both commands before the
snapshot reaches it. -/
def snapshotLast : List (Cluster.Act 3 ℕ) :=
  [.appendEntries 3, .appendReply 3, .installSnapshot 0]

/-- The snapshot of index 1 makes peer 2 drop the command 8, which the leader
counts as replicated there. -/
theorem snapshotLast_drops_acknowledged :
    ∃ c₁ c₂ c₃, exec Cluster.step (Cluster.init 3 ℕ) electZero = some c₁ ∧
      exec Cluster.step c₁ offerSnapshot = some c₂ ∧ exec Cluster.step c₂ snapshotLast = some c₃ ∧
      .command (some 7) 1 ∈ (c₂.peers 0).delivered ∧
      (c₁.peers 0).rf.state = .leader ∧ (c₃.peers 0).rf.state = .leader ∧
      (c₃.peers 0).rf.currentTerm = (c₁.peers 0).rf.currentTerm ∧
      (c₃.peers 2).rf.currentTerm = (c₃.peers 0).rf.currentTerm ∧
      (c₁.peers 0).rf.matchIndex 2 < (c₃.peers 0).rf.matchIndex 2 ∧
      (c₃.peers 2).rf.lastLogIndex < (c₃.peers 0).rf.matchIndex 2 :=
  ⟨_, _, _, rfl, rfl, rfl, by decide, by decide, by decide, by decide, by decide, by decide,
    by decide⟩

end Raft

end DistributedLabs
