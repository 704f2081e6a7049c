import DistributedLabs.Raft.Calls
import DistributedLabs.Raft.Reordering
import DistributedLabs.Raft.Safety

/-!
# What a follower commits

The follower takes `min(LeaderCommit, lastLogIndex())` as its commit index, and its
log may be longer than what the request has shown to be the log of the leader. This
does no harm: a leader sends all of its log from `PrevLogIndex` on and has committed
no more than its log, so `LeaderCommit` is never above the last entry of the request.
-/

namespace DistributedLabs

namespace Raft

open Consensus

variable {n : ℕ} {Cmd : Type*}

/-! ## The moment a request is sent -/

section

variable {c c' c₀ c₁ : Cluster n Cmd} {k : ℕ}
  {r r' : Rpc n (AppendEntriesArgs n Cmd) AppendEntriesReply}

/-- The two calls are one, before and after its handler has run. -/
structure SameCall (r r' : Rpc n (AppendEntriesArgs n Cmd) AppendEntriesReply) : Prop where
  src : r.src = r'.src
  dst : r.dst = r'.dst
  args : r.args = r'.args

/-- The step from `c₀` to `c₁` makes the call with the number `k`, and it is `r`. -/
structure Sends (c₀ c₁ : Cluster n Cmd) (k : ℕ)
    (r : Rpc n (AppendEntriesArgs n Cmd) AppendEntriesReply) : Prop where
  new : c₀.appends.length ≤ k
  call : ∃ r₁, c₁.appends[k]? = some r₁ ∧ SameCall r₁ r
  leader : (c₁.peers r.src).rf.state = .leader
  sent : (c₁.peers r.src).rf.heartbeatTo r.dst = some (.appendEntries r.dst r.args)

theorem Sends.of_sameCall (h : Sends c₀ c₁ k r) (hr : SameCall r r') : Sends c₀ c₁ k r' := by
  obtain ⟨r₁, hk, hr₁⟩ := h.call
  refine ⟨h.new, ⟨r₁, hk, hr₁.src.trans hr.src, hr₁.dst.trans hr.dst, hr₁.args.trans hr.args⟩,
    ?_, ?_⟩
  · rw [← hr.src]
    exact h.leader
  · rw [← hr.src, ← hr.dst, ← hr.args]
    exact h.sent

theorem sameCall_of_set {rpcs : List (Rpc n (AppendEntriesArgs n Cmd) AppendEntriesReply)}
    {j : ℕ} {x y : Rpc n (AppendEntriesArgs n Cmd) AppendEntriesReply} (hj : rpcs[j]? = some x)
    (hk : (rpcs.set j y)[k]? = some r') (hxy : SameCall x y) :
    ∃ r, rpcs[k]? = some r ∧ SameCall r r' := by
  by_cases hjk : j = k
  · subst hjk
    rw [List.getElem?_set_self (List.getElem?_eq_some_iff.mp hj).1] at hk
    obtain rfl := Option.some.inj hk
    exact ⟨x, hj, hxy⟩
  · rw [List.getElem?_set_ne hjk] at hk
    exact ⟨r', hk, rfl, rfl, rfl⟩

/-- A call after a step was there before, or the step has made it. -/
theorem step_sends {a : Cluster.Act n Cmd} (h : c.step a = some c')
    (hk : c'.appends[k]? = some r') :
    (∃ r, c.appends[k]? = some r ∧ SameCall r r') ∨ Sends c c' k r' := by
  cases Cluster.traffic_of_step h with
  | none happends hinstalls => exact Or.inl ⟨r', happends ▸ hk, rfl, rfl, rfl⟩
  | broadcast i out hlead hsent happends hinstalls =>
      have hold := hk
      rw [happends] at hk
      rcases Nat.lt_or_ge k c.appends.length with hlt | hge
      · rw [List.getElem?_append_left hlt] at hk
        exact Or.inl ⟨r', hk, rfl, rfl, rfl⟩
      · rw [List.getElem?_append_right hge] at hk
        obtain ⟨hmem, rfl, -, -⟩ := Cluster.mem_appendsOf (List.mem_of_getElem? hk)
        exact Or.inr ⟨hge, ⟨r', hold, rfl, rfl, rfl⟩, hlead,
          (Cluster.heartbeatTo_of_appendEntries_mem hsent hmem).2⟩
  | append j x rf reply hj hnew hhandled happends hinstalls =>
      rw [happends] at hk
      exact Or.inl (sameCall_of_set hj hk ⟨rfl, rfl, rfl⟩)
  | install j x hj hnew happends hinstalls => exact Or.inl ⟨r', happends ▸ hk, rfl, rfl, rfl⟩
  | appendTaken j x hj happends hinstalls =>
      rw [happends] at hk
      exact Or.inl (sameCall_of_set hj hk ⟨rfl, rfl, rfl⟩)
  | installTaken j x hj happends hinstalls => exact Or.inl ⟨r', happends ▸ hk, rfl, rfl, rfl⟩

/-- The run `acts` makes the call with the number `k` in the step that leads to `c₁`. -/
def SentIn (acts : List (Cluster.Act n Cmd)) (k : ℕ)
    (r : Rpc n (AppendEntriesArgs n Cmd) AppendEntriesReply) (c₁ : Cluster n Cmd) : Prop :=
  ∃ acts₁ a acts₂ c₀, acts = acts₁ ++ a :: acts₂ ∧
    exec Cluster.step (Cluster.init n Cmd) acts₁ = some c₀ ∧ c₀.step a = some c₁ ∧
    Sends c₀ c₁ k r

/-- Every call in a run was made in one of its steps. -/
theorem exists_sentIn {acts : List (Cluster.Act n Cmd)}
    (hexec : exec Cluster.step (Cluster.init n Cmd) acts = some c)
    (hk : c.appends[k]? = some r) : ∃ c₁, SentIn acts k r c₁ := by
  refine exec_history (I := fun acts c => ∀ r, c.appends[k]? = some r → ∃ c₁, SentIn acts k r c₁)
    ?_ ?_ hexec r hk
  · intro r hr
    cases hr
  · intro acts c a c' hc ih hstep r hr
    rcases step_sends hstep hr with ⟨r₀, hr₀, hsame⟩ | hsends
    · obtain ⟨c₁, acts₁, b, acts₂, c₀, rfl, hc₀, hc₁, hsends⟩ := ih r₀ hr₀
      refine ⟨c₁, acts₁, b, acts₂ ++ [a], c₀, ?_, hc₀, hc₁, hsends.of_sameCall hsame⟩
      rw [List.append_assoc, List.cons_append]
    · exact ⟨c', acts, a, [], c, rfl, hc, hstep, hsends⟩

end

/-! ## The logs of the leader and of the follower -/

section

variable {rf rf' : Raft n Cmd} {l : List (LogEntry Cmd)} {args : AppendEntriesArgs n Cmd}

/-- A leader sends all of its log from `PrevLogIndex` on. -/
theorem Keeps.heartbeatTo (h : rf.Keeps l) {dst : Fin n}
    (hsent : rf.heartbeatTo dst = some (.appendEntries dst args)) :
    args.PieceOf l ∧ args.prevLogIndex + args.entries.length = l.length ∧
      args.leaderCommit = rf.commitIndex := by
  rcases heartbeatTo_cases hsent with ⟨-, heq⟩ | ⟨prev, old, -, hinc, hprev, hold, heq⟩
  · cases heq
  · obtain ⟨-, rfl⟩ := Outgoing.appendEntries.inj heq
    rw [h.lastLogIndex] at hprev
    have hentries : rf.logs.rest.drop (prev - rf.lastIncludedIndex) = l.drop prev := by
      rw [h.rest, List.drop_drop, Nat.add_sub_cancel' hinc]
    refine ⟨⟨hprev, h.entryAt?_term hinc hold, ?_⟩, ?_, rfl⟩
    · dsimp only
      rw [hentries]
    · dsimp only
      rw [hentries, List.length_drop, Nat.add_sub_cancel' hprev]

/-- The handler raises the commit index only if it succeeds, and to the commit index of
the leader at most. -/
theorem appendEntries_raises {reply : AppendEntriesReply}
    (h : rf.appendEntries args = some (rf', reply)) (hlt : rf.commitIndex < rf'.commitIndex) :
    rf.currentTerm ≤ args.term ∧ reply.success = true ∧ rf'.commitIndex ≤ args.leaderCommit := by
  rcases appendEntries_cases h with ⟨-, rfl, -⟩ | ⟨hterm, rf₁, hrep, rfl⟩
  · omega
  have hlt₁ : (rf.toFollower.adoptTerm args.term).commitIndex < rf₁.commitIndex := by
    rw [adoptTerm_commitIndex]
    exact hlt
  refine ⟨hterm, ?_⟩
  rcases replicate_cases hrep with ⟨rfl, -, -⟩ | ⟨old, -, -, -, -, rfl, rfl⟩
  · omega
  · rcases followCommit_cases _ args.leaderCommit with ⟨-, heq⟩ | ⟨-, heq⟩
    · rw [heq] at hlt₁
      exact absurd hlt₁ (lt_irrefl _)
    · refine ⟨rfl, ?_⟩
      rw [heq]
      exact min_le_left _ _

variable {c c₁ : Cluster n Cmd} {st st₁ : Book n Cmd}

/-- In a plain run the log of every peer matches every log of a leader. -/
theorem PlainRefines.matchesLog (h : PlainRefines c st) (i : Fin n) {L : List (LogEntry Cmd)}
    (hL : Ledger.Good LogEntry.term st L) : (c.peers i).rf.MatchesLog L := by
  intro k e hk hlen he hterm
  have hinc := h.uncompacted.included i
  have hlog := (h.refines.peers i).log
  have hrest : (c.peers i).rf.logs.rest = st.log i := by
    rw [hlog.rest, hinc, List.drop_zero]
  have hzero : (c.peers i).rf.logs.zero.term = 0 := by
    rw [hlog.zero, hinc]
    rfl
  have hiff : (c.peers i).rf.AgreesUpTo L ((c.peers i).rf.lastIncludedIndex + k) ↔ _ :=
    agreesUpTo_add_iff
  rw [hinc, Nat.zero_add, List.drop_zero, List.take_zero, hrest] at hiff
  refine hiff.mpr ⟨hzero, hlen, ?_⟩
  cases k with
  | zero => exact List.nil_prefix
  | succ k =>
      rw [h.entryAt?, List.getElem?_cons_succ] at he
      obtain ⟨e', he'⟩ : ∃ e', L[k]? = some e' := ⟨_, List.getElem?_eq_getElem hlen⟩
      rw [tipTerm_take_succ _ he'] at hterm
      rw [← (h.refines.inv.logs.log_good i).take_eq hL he he' hterm]
      exact List.take_prefix _ _

end

/-! ## Commitments of followers -/

section

variable {acts : List (Cluster.Act n Cmd)} {c c' c₁ : Cluster n Cmd} {st st₁ : Book n Cmd} {k : ℕ}
  {r : Rpc n (AppendEntriesArgs n Cmd) AppendEntriesReply}

/-- The ledger at the moment of sending has only grown since. -/
theorem SentIn.refines (h : SentIn acts k r c₁) (hplain : Plain acts)
    (hexec : exec Cluster.step (Cluster.init n Cmd) acts = some c) :
    ∃ st₁ st, PlainRefines c₁ st₁ ∧ PlainRefines c st ∧ st₁ ≤ st := by
  obtain ⟨acts₁, a, acts₂, c₀, rfl, hc₀, hc₁, -⟩ := h
  have hfirst : exec Cluster.step (Cluster.init n Cmd) (acts₁ ++ [a]) = some c₁ :=
    exec_append_eq_some.mpr ⟨c₀, hc₀, exec_cons_eq_some.mpr ⟨c₁, hc₁, rfl⟩⟩
  rw [List.append_cons] at hexec hplain
  obtain ⟨c₁', hc₁', hrest⟩ := exec_append_eq_some.mp hexec
  obtain rfl := Option.some.inj (hfirst.symm.trans hc₁')
  exact exec_simulation_pair (fun _ _ _ _ h ha hs => PlainRefines.step h ha hs)
    (plainRefines_init n Cmd) (hplain.meets _) hfirst hrest

/-- A follower that raises its commit index has the entries of the leader up to it, as
they were when the leader sent the request. -/
theorem PlainRefines.raised (h₁ : PlainRefines c₁ st₁) (h : PlainRefines c st) (hle : st₁ ≤ st)
    {rf' : Raft n Cmd} {reply : AppendEntriesReply}
    (hsent : (c₁.peers r.src).rf.heartbeatTo r.dst = some (.appendEntries r.dst r.args))
    (hrf : (c.peers r.dst).rf.appendEntries r.args = some (rf', reply))
    (hlt : (c.peers r.dst).rf.commitIndex < rf'.commitIndex) :
    rf'.AgreesUpTo (st₁.log r.src) rf'.commitIndex := by
  obtain ⟨hpiece, hlen, hcommit⟩ := (h₁.refines.peers r.src).log.heartbeatTo hsent
  obtain ⟨hterm, hsuccess, hle'⟩ := appendEntries_raises hrf hlt
  have hgood := (h₁.refines.inv.logs.log_good r.src).mono hle
  have hmatch := h.matchesLog r.dst hgood
  have hzero : (c.peers r.dst).rf.AgreesUpTo (st₁.log r.src) 0 :=
    hmatch 0 _ (h.uncompacted.included r.dst).le (Nat.zero_le _) (h.entryAt? r.dst 0) rfl
  have hagree := (appendEntries_agrees hterm hmatch hzero hpiece hrf).2 hsuccess
  have hreach := (h₁.refines.peers r.src).committed
  intro i hi hic
  refine hagree i hi (le_max_of_le_right ?_)
  omega

/-- Followers only commit verified entries. -/
theorem appendEntries_commits_verified (hplain : Plain acts)
    (hexec : exec Cluster.step (Cluster.init n Cmd) acts = some c) :
    (∀ r ∈ c.appends, r.args.leaderCommit ≤ r.args.prevLogIndex + r.args.entries.length) ∧
      ∀ k r c', c.appends[k]? = some r → c.step (.appendEntries k) = some c' →
        (c.peers r.dst).rf.commitIndex < (c'.peers r.dst).rf.commitIndex →
        ∃ c₁, SentIn acts k r c₁ ∧ ∀ i ≤ (c'.peers r.dst).rf.commitIndex,
          ∃ e, (c'.peers r.dst).rf.entryAt? i = some e ∧
            (c₁.peers r.src).rf.entryAt? i = some e := by
  obtain ⟨st, h⟩ := hplain.refines hexec
  refine ⟨fun r hr => (h.refines.appends r hr).commit, fun k r c' hk hs hlt => ?_⟩
  obtain ⟨c₁, hsentIn⟩ := exists_sentIn hexec hk
  refine ⟨c₁, hsentIn, fun i hi => ?_⟩
  obtain ⟨st₁, st, h₁, h, hle⟩ := hsentIn.refines hplain hexec
  obtain ⟨st', -, h'⟩ := h.step ⟨rfl, rfl⟩ hs
  rw [h₁.entryAt?]
  cases i with
  | zero => exact ⟨_, h'.entryAt? r.dst 0, rfl⟩
  | succ i =>
      obtain ⟨r', rf', reply, hk', -, hrf, rfl⟩ := Cluster.step_appendEntries hs
      obtain rfl := Option.some.inj (hk.symm.trans hk')
      have hself : ((c.setRf r.dst rf').peers r.dst).rf = rf' :=
        congrArg Peer.rf (Cluster.setRf_self c r.dst rf')
      have hinc : rf'.lastIncludedIndex = 0 := hself ▸ h'.uncompacted.included r.dst
      dsimp only at hlt hi ⊢
      rw [hself] at hlt hi ⊢
      obtain ⟨acts₁, a, acts₂, c₀, -, -, -, hsends⟩ := hsentIn
      have hagree := h₁.raised h hle hsends.sent hrf hlt
      obtain ⟨-, e, he, -, hentry⟩ := hagree (i + 1) (hinc.trans_le (Nat.zero_le _)) hi
      exact ⟨e, he, hentry (hinc.trans_lt (Nat.succ_pos i))⟩

end

/-- Peer 0 is elected and has committed the command 7 with peer 1, and its next request
is on the way. -/
def nextHeartbeat : List (Cluster.Act 3 ℕ) :=
  [.ticker 0, .requestVote 0, .voteReply 0, .start 0 (some 7), .heartbeat 0, .appendEntries 2,
    .appendReply 2, .heartbeat 0]

/-- Peer 1 learns from it that the entry is committed. -/
theorem appendEntries_commits_verified_nextHeartbeat :
    ∃ c c' r, exec Cluster.step (Cluster.init 3 ℕ) nextHeartbeat = some c ∧
      c.appends[4]? = some r ∧ c.step (.appendEntries 4) = some c' ∧
      (c'.peers r.dst).rf.commitIndex = 1 ∧ ∃ c₁ e, SentIn nextHeartbeat 4 r c₁ ∧
        (c₁.peers r.src).rf.entryAt? 1 = some e ∧ (c'.peers r.dst).rf.entryAt? 1 = some e := by
  have hexec : exec Cluster.step (Cluster.init 3 ℕ) nextHeartbeat = some _ := rfl
  obtain ⟨c₁, hsentIn, hagree⟩ :=
    (appendEntries_commits_verified (by decide) hexec).2 4 _ _ rfl rfl (by decide)
  obtain ⟨e, he', he⟩ := hagree 1 (by decide)
  exact ⟨_, _, _, hexec, rfl, rfl, by decide, c₁, e, hsentIn, he, he'⟩

end Raft

end DistributedLabs
