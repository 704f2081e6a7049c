import DistributedLabs.Raft.Refinement

/-!
# The steps of a peer in the ledger

For each function of a peer, the steps that the peer takes in the ledger and the
relation between the two afterwards.
-/

namespace DistributedLabs

namespace Raft

open Consensus

variable {n : ℕ} {Cmd : Type*} {st : Book n Cmd} {i : Fin n} {rf rf' : Raft n Cmd}

/-- The fields of a peer that the ledger does not see. -/
theorem PeerRel.unseen (h : PeerRel st i rf) (nextIndex : Fin n → ℤ) (lastApplied cnt : ℕ)
    (snapshot : Bytes) (flag : Bool) (persister : Persister Cmd) :
    PeerRel st i { rf with
      nextIndex := nextIndex, lastApplied := lastApplied, voteGrantedCnt := cnt,
      snapshot := snapshot, replicatePreSnapshot := flag, persister := persister } :=
  ⟨h.term, h.log, h.vote, h.candidate, h.leader, h.own, h.committed, h.chosen, h.included,
    h.matched⟩

theorem PeerRel.persist (h : PeerRel st i rf) : PeerRel st i rf.persist :=
  h.unseen _ _ _ _ _ _

/-! ## Terms -/

/-- A peer that learns of a larger term follows it. -/
theorem PeerRel.bump (hinv : st.Inv) (h : PeerRel st i rf) {t : ℕ} (ht : rf.currentTerm < t)
    (votedFor : ℤ) : ∃ st', Book.Moves i st st' ∧ st'.log i = st.log i ∧
      PeerRel st' i { rf with currentTerm := t, votedFor := votedFor, state := .follower } := by
  have hlt : st.term i < t := h.term ▸ ht
  have hstep : Ledger.Step (majority n) LogEntry.term i st
      { st with term := Function.update st.term i t } := .bump t hlt.le
  refine ⟨_, .single hstep, rfl, ?_⟩
  refine ⟨?_, h.log, fun hv => ?_, (nomatch ·), ⟨(nomatch ·), fun hl => ?_⟩,
    (nomatch ·), h.committed, h.chosen.mono hstep.le ht.le, h.included,
    (nomatch ·)⟩
  · exact (Function.update_self i t st.term).symm
  · exact absurd (hinv.votes.votes_le hv) (Nat.not_le.mpr hlt)
  · exact absurd (hinv.votes.leads_le hl) (Nat.not_le.mpr hlt)

/-- A peer that hears of the leader of its term, or of a larger one, follows it. -/
theorem PeerRel.follow (hinv : st.Inv) (h : PeerRel st i rf) {c : Fin n} {t : ℕ}
    (ht : rf.currentTerm ≤ t) (hlead : st.leads c t) (hne : c ≠ i) :
    ∃ st', Book.Moves i st st' ∧ st'.log i = st.log i ∧
      PeerRel st' i (rf.toFollower.adoptTerm t) ∧
      (rf.toFollower.adoptTerm t).state = .follower ∧
      (rf.toFollower.adoptTerm t).currentTerm = t := by
  rcases adoptTerm_cases rf.toFollower t with ⟨hle, he⟩ | ⟨hlt, he⟩
  · have heq : rf.currentTerm = t := le_antisymm ht hle
    rw [he]
    refine ⟨st, .refl, rfl, ⟨h.term, h.log, h.vote, (nomatch ·),
      ⟨(nomatch ·), fun hl => ?_⟩, (nomatch ·), h.committed, h.chosen,
      h.included, (nomatch ·)⟩, rfl, heq⟩
    exact absurd (hinv.votes.leads_unique hlead (heq ▸ hl)) hne
  · obtain ⟨st', hm, hlog, hrel⟩ := h.bump hinv hlt noVote
    rw [he]
    exact ⟨st', hm, hlog, hrel, rfl, rfl⟩

/-! ## Elections -/

/-- An election timeout. -/
theorem PeerRel.ticker (hinv : st.Inv) (h : PeerRel st i rf) (hme : rf.me = i) :
    ∃ st', Book.Moves i st st' ∧ PeerRel st' i rf.ticker.1 ∧
      st'.stood i (rf.currentTerm + 1) (st.log i) := by
  have hstep : Ledger.Step (majority n) LogEntry.term i st _ := .stand
  have hnew : st.term i + 1 = rf.currentTerm + 1 := by rw [h.term]
  refine ⟨_, .single hstep, ?_, Or.inr ⟨rfl, hnew.symm, rfl⟩⟩
  refine ⟨?_, h.log, ?_, fun _ => ⟨Or.inr ⟨rfl, hnew.symm, rfl⟩, Or.inr ⟨rfl, hnew.symm, rfl⟩⟩,
    ⟨(nomatch ·), fun hl => ?_⟩, (nomatch ·), h.committed,
    h.chosen.mono hstep.le (Nat.le_succ _), h.included, (nomatch ·)⟩
  · exact hnew.symm.trans (Function.update_self i (st.term i + 1) st.term).symm
  · rintro s (hv | ⟨-, -, rfl⟩)
    · have hle : rf.currentTerm + 1 ≤ st.term i := hinv.votes.votes_le hv
      omega
    · exact congrArg (fun m : Fin n => ((m : ℕ) : ℤ)) hme
  · have hle : rf.currentTerm + 1 ≤ st.term i := hinv.votes.leads_le hl
    omega

/-- A granted vote of the current term. -/
theorem PeerRel.grant (h : PeerRel st i rf) {c : Fin n} {l : List (LogEntry Cmd)}
    (hstood : st.stood c rf.currentTerm l)
    (hfree : rf.votedFor = noVote ∨ rf.votedFor = (c : ℕ))
    (hnew : UpToDate LogEntry.term l (st.log i)) :
    ∃ st', Book.Moves i st st' ∧ PeerRel st' i { rf with votedFor := (c : ℕ) } ∧
      st'.votes i rf.currentTerm c := by
  -- an earlier vote of the term is recorded, so it is a vote for the same candidate
  have honly : ∀ c', st.votes i rf.currentTerm c' → c' = c := by
    intro c' hv
    have hrec := h.vote hv
    rcases hfree with hfree | hfree
    · rw [hfree, noVote] at hrec
      omega
    · apply Fin.ext
      rw [hfree] at hrec
      omega
  have hstep : Ledger.Step (majority n) LogEntry.term i st _ :=
    .grant c l (h.term ▸ hstood) (h.term ▸ honly) hnew
  refine ⟨_, .single hstep, ?_, Or.inr ⟨rfl, h.term, rfl⟩⟩
  refine ⟨h.term, h.log, ?_, fun hc => ?_, h.leader, h.own, h.committed,
    h.chosen.mono hstep.le le_rfl, h.included, h.matched⟩
  · rintro s (hv | ⟨-, -, rfl⟩)
    · rw [honly s hv]
    · rfl
  · obtain ⟨hs, hv⟩ := h.candidate hc
    exact ⟨hs, Or.inl hv⟩

/-- `RequestVote` in the ledger; a granted reply is a vote. -/
theorem PeerRel.requestVote (hinv : st.Inv) (h : PeerRel st i rf) {r : VoteRpc n}
    (hcall : VoteCall st r) (hcand : r.args.candidateId = r.src) :
    ∃ st', Book.Moves i st st' ∧ PeerRel st' i (rf.requestVote r.args).1 ∧
      ((rf.requestVote r.args).2.voteGranted = true → st'.votes i r.args.term r.src) := by
  have hfollow : rf.currentTerm ≤ r.args.term → ∃ st', Book.Moves i st st' ∧
      st'.log i = st.log i ∧ PeerRel st' i (rf.followTerm r.args.term) ∧
      (rf.followTerm r.args.term).currentTerm = r.args.term := by
    intro hle
    rcases followTerm_cases rf r.args.term with ⟨hge, he⟩ | ⟨hlt, he⟩
    · rw [he]
      exact ⟨st, .refl, rfl, h, le_antisymm hle hge⟩
    · obtain ⟨st', hm, hlog, hrel⟩ := h.bump hinv hlt noVote
      rw [he]
      exact ⟨st', hm, hlog, hrel, rfl⟩
  rcases requestVote_cases rf r.args with ⟨-, he⟩ | ⟨hle, he⟩ | ⟨hle, hfree, hnew, he⟩
  · rw [he]
    exact ⟨st, .refl, h, (nomatch ·)⟩
  · obtain ⟨st', hm, -, hrel, -⟩ := hfollow hle
    rw [he]
    exact ⟨st', hm, hrel.persist, (nomatch ·)⟩
  · obtain ⟨st₁, hm₁, hlog, hrel, hterm⟩ := hfollow hle
    obtain ⟨l, hstood, hlen, htip⟩ := (hcall.mono hm₁.le).stood
    have hdate : UpToDate LogEntry.term l (st₁.log i) := by
      rw [isLogUpToDate_iff, hrel.log.lastLogTerm, hrel.log.lastLogIndex, hlen, htip] at hnew
      exact hnew
    rw [hcand] at hfree
    obtain ⟨st₂, hm₂, hrel₂, hvote⟩ :=
      hrel.grant (hterm.symm ▸ hstood) hfree hdate
    rw [he, hcand]
    exact ⟨st₂, hm₁.trans hm₂, hrel₂.persist, fun _ => hterm ▸ hvote⟩

/-- A candidate with the votes of a majority becomes the leader. -/
theorem PeerRel.win (hinv : st.Inv) (h : PeerRel st i rf) (hcand : rf.state = .candidate)
    (hme : rf.me = i) {Q : Finset (Fin n)} (hQ : n / 2 < Q.card)
    (hvotes : ∀ v ∈ Q, st.votes v rf.currentTerm i) :
    ∃ st', Book.Moves i st st' ∧
      PeerRel st' i rf.toLeader.initializeLeaderEasilyLostState := by
  have hquorum : (majority n).IsQuorum Q := hQ
  have hfree : ∀ c, ¬ st.leads c rf.currentTerm := by
    intro c hc
    obtain ⟨Q', hQ', hvotes'⟩ := hinv.votes.quorum hc
    obtain ⟨v, hv, hv'⟩ := (majority n).inter hquorum hQ'
    obtain rfl := hinv.votes.votes_unique (hvotes v hv) (hvotes' v hv')
    rw [h.leader.mpr hc] at hcand
    cases hcand
  have hstood := (h.candidate hcand).1
  rw [h.term] at hvotes hfree hstood
  obtain ⟨st', hm, hterm', hlog', hvotes', hleads', hacked'⟩ :
      ∃ st', Book.Moves i st st' ∧ _ := Ledger.moves_win hquorum hvotes hstood hfree
  have hterm : rf.currentTerm = st'.term i := by rw [hterm', h.term]
  rw [← h.term] at hleads' hacked'
  refine ⟨st', hm, hterm, by rw [hlog']; exact h.log, fun hv => ?_, (nomatch ·),
    ⟨fun _ => hleads', fun _ => rfl⟩, fun _ => by rw [hlog']; exact hacked',
    by rw [hlog']; exact h.committed, by rw [hlog']; exact h.chosen.mono hm.le le_rfl, h.included,
    fun _ p => ?_⟩
  · rw [hvotes'] at hv
    exact h.vote hv
  · by_cases hp : p = i
    · right
      subst hp
      have hmatch : rf.toLeader.initializeLeaderEasilyLostState.matchIndex p =
          (st.log p).length := by
        rw [← h.log.lastLogIndex]
        simp [initializeLeaderEasilyLostState, toLeader, hme]
        rfl
      rw [hmatch]
      exact hacked'
    · left
      have hmatch : rf.toLeader.initializeLeaderEasilyLostState.matchIndex p =
          rf.lastIncludedIndex := by
        simp [initializeLeaderEasilyLostState, toLeader, hme, hp]
      exact hmatch.trans_le h.included

/-! ## Replication -/

theorem agree_of_good {l m : List (LogEntry Cmd)} (hl : Ledger.Good LogEntry.term st l)
    (hm : Ledger.Good LogEntry.term st m) : Agree l m :=
  fun _ _ _ he he' hterm => hl.take_eq hm he he' hterm

/-- A follower adopts the first `k` entries of the leader of its term and
acknowledges them. Its commit index stays, or moves to a chosen index among
them. -/
theorem PeerRel.accept (hinv : st.Inv) (h : PeerRel st i rf) (hstate : rf.state = .follower)
    {c : Fin n} {k : ℕ} (hlead : st.leads c rf.currentTerm) (hne : c ≠ i)
    (hk : k ≤ (st.lead rf.currentTerm).length)
    (hterm' : rf'.currentTerm = rf.currentTerm) (hvote' : rf'.votedFor = rf.votedFor)
    (hstate' : rf'.state = .follower)
    (hlog' : rf'.Keeps (adopt (st.log i) ((st.lead rf.currentTerm).take k)))
    (hincluded' : rf'.lastIncludedIndex ≤ rf'.commitIndex)
    (hcommit' : rf'.commitIndex = rf.commitIndex ∨ (rf'.commitIndex ≤ k ∧
      st.Chosen rf.currentTerm ((st.lead rf.currentTerm).take rf'.commitIndex))) :
    ∃ st', Book.Moves i st st' ∧ PeerRel st' i rf' ∧ st'.acked i rf.currentTerm k := by
  have hstart := starts_adopt (st.log i) ((st.lead rf.currentTerm).take k)
  have hlen : ((st.lead rf.currentTerm).take k).length = k := List.length_take_of_le hk
  obtain ⟨st', hm, hterm₂, hlog₂, hvotes₂, hleads₂, hacked⟩ :
      ∃ st', Book.Moves i st st' ∧ _ :=
    Ledger.moves_accept (h.term ▸ hlead) hne (h.term ▸ hk)
  rw [← h.term] at hlog₂ hacked
  -- what the follower has committed is in the log of the leader, so it is kept
  have hkept : (st.log i).take rf.commitIndex <+:
      adopt (st.log i) ((st.lead rf.currentTerm).take k) := by
    have htake := List.take_prefix rf.commitIndex (st.log i)
    exact adopt_keeps htake (hinv.chosen_lead h.chosen hlead le_rfl) k
  have hkeptlen : ((st.log i).take rf.commitIndex).length = rf.commitIndex :=
    List.length_take_of_le h.committed
  have hcommitted : rf'.commitIndex ≤ (st'.log i).length ∧
      st.Chosen rf.currentTerm ((st'.log i).take rf'.commitIndex) := by
    rw [hlog₂]
    rcases hcommit' with hcommit' | ⟨hle', hchosen⟩
    · have htake := List.prefix_iff_eq_take.mp hkept
      have hle := hkept.length_le
      rw [hkeptlen] at htake hle
      rw [hcommit', ← htake]
      exact ⟨hle, h.chosen⟩
    · have hle := hstart.length_le
      rw [hlen] at hle
      obtain ⟨rest, hrest⟩ := hstart
      refine ⟨hle'.trans hle, ?_⟩
      rw [← hrest, List.take_append_of_le_length (hle'.trans_eq hlen.symm), List.take_take,
        Nat.min_eq_left hle']
      exact hchosen
  have hnot : rf'.state ≠ .leader := by
    rw [hstate']
    exact (nomatch ·)
  refine ⟨st', hm, ⟨?_, ?_, fun hv => ?_, fun hc => ?_, ⟨fun hl => absurd hl hnot, fun hl => ?_⟩,
    fun hl => absurd hl hnot, hcommitted.1, ?_, hincluded', fun hl => absurd hl hnot⟩, hacked⟩
  · rw [hterm', h.term, hterm₂]
  · rw [hlog₂]
    exact hlog'
  · rw [hterm', hvotes₂] at hv
    exact hvote'.trans (h.vote hv)
  · rw [hstate'] at hc
    cases hc
  · rw [hterm', hleads₂] at hl
    rw [h.leader.mpr hl] at hstate
    cases hstate
  · rw [hterm']
    exact hcommitted.2.mono hm.le le_rfl

/-- `AppendEntries` in the ledger; a success is an acknowledgement. -/
theorem PeerRel.appendEntries (hinv : st.Inv) (h : PeerRel st i rf)
    {r : Rpc n (AppendEntriesArgs n Cmd) AppendEntriesReply} (hcall : AppendCall st r)
    (hdst : r.dst = i) {reply : AppendEntriesReply}
    (hrf : rf.appendEntries r.args = some (rf', reply)) :
    ∃ st', Book.Moves i st st' ∧ PeerRel st' i rf' ∧ (reply.success = true →
      st'.acked i r.args.term (r.args.prevLogIndex + r.args.entries.length)) := by
  rcases appendEntries_cases hrf with ⟨-, rfl, rfl⟩ | ⟨hle, rf₂, hrep, rfl⟩
  · exact ⟨st, .refl, h, (nomatch ·)⟩
  obtain ⟨st₁, hm₁, -, hrel, hstate, hterm⟩ :=
    h.follow hinv hle hcall.leads (hdst ▸ hcall.other)
  have hinv₁ := hinv.moves hm₁
  have hcall₁ := hcall.mono hm₁.le
  generalize rf.toFollower.adoptTerm r.args.term = rf₁ at hrep hrel hstate hterm
  rcases replicate_cases hrep with ⟨rfl, -, hfail⟩ | ⟨old, hinc, hprev, hold, hprevTerm, rfl, rfl⟩
  · exact ⟨st₁, hm₁, hrel.persist, fun hs => by rw [hfail] at hs; cases hs⟩
  -- the check of the previous entry means that the logs agree up to it
  have hprevlen : r.args.prevLogIndex ≤ (st₁.log i).length := by
    rwa [hrel.log.lastLogIndex] at hprev
  have hlgood := hinv₁.logs.log_good i
  have hmgood := hinv₁.logs.lead_good hcall₁.leads
  have hsame : (st₁.lead r.args.term).take r.args.prevLogIndex =
      (st₁.log i).take r.args.prevLogIndex := by
    have hl := List.take_prefix r.args.prevLogIndex (st₁.log i)
    have hm := List.take_prefix r.args.prevLogIndex (st₁.lead r.args.term)
    refine (hlgood.matching hmgood hl hm ?_ ?_).symm
    · rw [List.length_take_of_le hprevlen, List.length_take_of_le hcall₁.prev]
    · rw [← hrel.log.entryAt?_term hinc hold, hprevTerm, hcall₁.prevTerm]
  have hcopy : Keeps { rf₁ with
      logs := copyEntries rf₁.logs (rf₁.logIndex (r.args.prevLogIndex + 1)) r.args.entries } _ :=
    Logs.Holds.copyEntries hrel.log hinc hprevlen hsame (agree_of_good hlgood hmgood)
      hcall₁.prev hcall₁.entries
  have hlead := hcall₁.leads
  rw [← hterm] at hcopy hlead
  have hk := hcall₁.length_le
  have hchosen := hcall₁.chosen
  rw [← hterm] at hk hchosen
  have hlast : r.args.leaderCommit ≤ Raft.lastLogIndex { rf₁ with
      logs := copyEntries rf₁.logs (rf₁.logIndex (r.args.prevLogIndex + 1)) r.args.entries } := by
    rw [hcopy.lastLogIndex]
    have hlen := (starts_adopt (st₁.log i) ((st₁.lead rf₁.currentTerm).take
      (r.args.prevLogIndex + r.args.entries.length))).length_le
    rw [List.length_take_of_le hk] at hlen
    exact hcall₁.commit.trans hlen
  have haccept : ∃ st', Book.Moves i st₁ st' ∧ PeerRel st' i (followCommit { rf₁ with
        logs := copyEntries rf₁.logs (rf₁.logIndex (r.args.prevLogIndex + 1)) r.args.entries }
      r.args.leaderCommit) ∧
      st'.acked i rf₁.currentTerm (r.args.prevLogIndex + r.args.entries.length) := by
    rcases followCommit_cases { rf₁ with
        logs := copyEntries rf₁.logs (rf₁.logIndex (r.args.prevLogIndex + 1)) r.args.entries }
      r.args.leaderCommit with ⟨-, he⟩ | ⟨hlt, he⟩
    · rw [he]
      exact hrel.accept hinv₁ hstate hlead (hdst ▸ hcall₁.other) hk rfl rfl hstate hcopy
        hrel.included (Or.inl rfl)
    · rw [he, Nat.min_eq_left hlast]
      exact hrel.accept hinv₁ hstate hlead (hdst ▸ hcall₁.other) hk rfl rfl hstate hcopy
        (hrel.included.trans hlt.le) (Or.inr ⟨hcall₁.commit, hchosen⟩)
  obtain ⟨st₂, hm₂, hrel₂, hacked⟩ := haccept
  exact ⟨st₂, hm₁.trans hm₂, hrel₂.persist, fun _ => hterm ▸ hacked⟩

/-- The test that `InstallSnapshot` makes on slot 0 has the outcome of the same
test on the entry at the snapshot point, whenever the request is accepted and
there is such an entry. -/
def snapshotTestHolds (rf : Raft n Cmd) (args : InstallSnapshotArgs n) : Prop :=
  rf.currentTerm ≤ args.term → rf.lastIncludedIndex < args.lastIncludedIndex →
    rf.commitIndex < args.lastIncludedIndex →
    ∀ e ∈ rf.entryAt? args.lastIncludedIndex,
      (rf.logs.zero.term = args.lastIncludedTerm ↔ e.term = args.lastIncludedTerm)

instance (rf : Raft n Cmd) (args : InstallSnapshotArgs n) :
    Decidable (rf.snapshotTestHolds args) := by
  unfold snapshotTestHolds
  infer_instance

/-- `InstallSnapshot` in the ledger; a reply that is not refused for its term is an
acknowledgement. A peer that has already committed the snapshot point holds it,
because it is chosen. -/
theorem PeerRel.installSnapshot (hinv : st.Inv) (h : PeerRel st i rf)
    {r : Rpc n (InstallSnapshotArgs n) InstallSnapshotReply} (hcall : InstallCall st r)
    (hdst : r.dst = i) (htest : snapshotTestHolds rf r.args) :
    ∃ st', Book.Moves i st st' ∧ PeerRel st' i (rf.installSnapshot r.args).1 ∧
      ((rf.installSnapshot r.args).2.1.term ≤ r.args.term →
        st'.acked i r.args.term r.args.lastIncludedIndex) := by
  have hne : r.src ≠ i := hdst ▸ hcall.other
  rcases installSnapshot_cases rf r.args with
    ⟨hstale, he⟩ | ⟨hle, hearly, he⟩ | ⟨hle, hinc, hcom, he⟩
  · rw [he]
    exact ⟨st, .refl, h, fun hreply => absurd hstale (Nat.not_lt.mpr hreply)⟩
  · obtain ⟨st₁, hm₁, hlog, hrel, hstate, hterm⟩ := h.follow hinv hle hcall.leads hne
    have hcall₁ := hcall.mono hm₁.le
    have hcommit : r.args.lastIncludedIndex ≤
        (rf.toFollower.adoptTerm r.args.term).commitIndex := by
      rw [adoptTerm_commitIndex]
      exact hearly.elim (fun hearly => hearly.trans h.included) id
    rw [he, ← toFollower_adoptTerm]
    generalize rf.toFollower.adoptTerm r.args.term = rf₁ at hrel hstate hterm hcommit
    have hlead := hcall₁.leads
    have hinc := hcall₁.included
    rw [← hterm] at hlead hinc
    have hprefix := (hinv.moves hm₁).chosen_lead hrel.chosen hlead le_rfl
    have hholds : (st₁.lead rf₁.currentTerm).take r.args.lastIncludedIndex <+: st₁.log i := by
      have htake := List.take_prefix r.args.lastIncludedIndex (st₁.lead rf₁.currentTerm)
      have hcommitted := List.take_prefix rf₁.commitIndex (st₁.log i)
      refine (List.prefix_of_prefix_length_le htake hprefix ?_).trans hcommitted
      rw [List.length_take_of_le hinc, List.length_take_of_le hrel.committed]
      exact hcommit
    obtain ⟨st₂, hm₂, hrel₂, hacked⟩ := hrel.accept (hinv.moves hm₁) hstate hlead hne hinc rfl rfl
      hstate ((adopt_eq_self hholds).symm ▸ hrel.log) hrel.included (Or.inl rfl)
    exact ⟨st₂, hm₁.trans hm₂, hrel₂, fun _ => hterm ▸ hacked⟩
  · obtain ⟨st₁, hm₁, hlog, hrel, hstate, hterm⟩ := h.follow hinv hle hcall.leads hne
    have hinv₁ := hinv.moves hm₁
    have hcall₁ := hcall.mono hm₁.le
    have hkeeps : rf.Keeps (st₁.log i) := hlog.symm ▸ h.log
    have htake := hkeeps.takeOver hinc hcall₁.included hcall₁.includedTerm
      (agree_of_good (hinv₁.logs.log_good i) (hinv₁.logs.lead_good hcall₁.leads))
      (htest hle hinc hcom)
    rw [he, ← toFollower_adoptTerm]
    generalize rf.toFollower.adoptTerm r.args.term = rf₁ at hrel hstate hterm
    have hlead := hcall₁.leads
    have hincluded := hcall₁.included
    have hchosen := hcall₁.chosen
    rw [← hterm] at hlead hincluded hchosen htake
    have hkept : (rf₁.takeOver r.args (rf.keptEntries r.args)).Keeps
        (adopt (st₁.log i) ((st₁.lead rf₁.currentTerm).take r.args.lastIncludedIndex)) := htake
    obtain ⟨st₂, hm₂, hrel₂, hacked⟩ := hrel.accept hinv₁ hstate hlead hne hincluded
      (by rfl) (by rfl) (by exact hstate) hkept le_rfl (Or.inr ⟨le_rfl, hchosen⟩)
    exact ⟨st₂, hm₁.trans hm₂, hrel₂.persist, fun _ => hterm ▸ hacked⟩

/-! ## Leaders -/

/-- `Start` appends in the ledger. -/
theorem PeerRel.start (hinv : st.Inv) (h : PeerRel st i rf) (hme : rf.me = i)
    (command : Option Cmd) :
    ∃ st', Book.Moves i st st' ∧ PeerRel st' i (rf.start command).1 := by
  rcases start_cases rf command with ⟨-, he⟩ | ⟨hstate, rf₁, rfl, he⟩
  · rw [he]
    exact ⟨st, .refl, h⟩
  obtain ⟨st', hm, hterm', hlog', hvotes', hleads', hacked'⟩ :
      ∃ st', Book.Moves i st st' ∧ _ :=
    hinv.moves_append (e := { term := rf.currentTerm, cmd := command })
      (h.term ▸ h.leader.mp hstate) h.term
  rw [← h.term] at hacked'
  have hchosen : st'.Chosen rf.currentTerm ((st'.log i).take rf.commitIndex) := by
    rw [hlog', List.take_append_of_le_length h.committed]
    exact h.chosen.mono hm.le le_rfl
  rw [he]
  refine ⟨st', hm, h.term.trans (by rw [hterm']), ?_, fun hv => ?_, fun hc => ?_,
    ⟨fun hl => ?_, fun hl => ?_⟩, fun _ => ?_, ?_, hchosen, h.included, fun _ p => ?_⟩
  · rw [hlog']
    exact h.log.push _
  · rw [hvotes'] at hv
    exact h.vote hv
  · exact absurd (hstate.symm.trans hc) (nomatch ·)
  · rw [hleads']
    exact h.leader.mp hl
  · rw [hleads'] at hl
    exact h.leader.mpr hl
  · rw [hlog']
    exact hacked'
  · rw [hlog', List.length_append]
    exact h.committed.trans (Nat.le_add_right _ _)
  · by_cases hp : p = i
    · subst hp
      right
      simp only [Function.update_self, hme, h.log.lastLogIndex]
      rw [List.length_append, List.length_singleton] at hacked'
      exact hacked'
    · simp only [Function.update_of_ne (hme.symm ▸ hp)]
      exact (h.matched hstate p).imp_right hm.le.acked

/-- A leader records an acknowledgement. -/
theorem PeerRel.recordMatch (h : PeerRel st i rf) {p : Fin n} {k : ℕ}
    (hack : st.acked p rf.currentTerm k) (next : Fin n → ℤ) :
    PeerRel st i { rf with
      matchIndex := Function.update rf.matchIndex p (max (rf.matchIndex p) k)
      nextIndex := next } := by
  refine ⟨h.term, h.log, h.vote, h.candidate, h.leader, h.own, h.committed, h.chosen, h.included,
    fun hl q => ?_⟩
  by_cases hq : q = p
  · subst hq
    simp only [Function.update_self]
    rcases max_choice (rf.matchIndex q) k with hmax | hmax
    · rw [hmax]
      exact h.matched hl q
    · rw [hmax]
      exact Or.inr hack
  · simp only [Function.update_of_ne hq]
    exact h.matched hl q

/-- What `checkAndCommitLogs` commits is chosen: the peers it counts have
acknowledged the index, since it lies above the commit index. -/
theorem PeerRel.checkAndCommitLogs (hinv : st.Inv) (h : PeerRel st i rf)
    (hstate : rf.state = .leader) (hrf : rf.checkAndCommitLogs = some rf') :
    PeerRel st i rf' := by
  rcases checkAndCommitLogs_cases hrf with
    rfl | ⟨N, hlt, hlast, ⟨entry, hentry, hterm⟩, ⟨Q, hQ, hmatch⟩, rfl⟩
  · exact h
  have hlead := h.leader.mp hstate
  have hown : st.log i = st.lead rf.currentTerm := by
    rw [h.term] at hlead ⊢
    exact hinv.logs.own hlead
  rw [h.log.lastLogIndex] at hlast
  have hlen : ((st.log i).take N).length = N := List.length_take_of_le hlast
  refine ⟨h.term, h.log, h.vote, h.candidate, h.leader, h.own, hlast, ?_, h.included.trans hlt.le,
    fun hl p => (h.matched hl p).imp_left (le_trans · hlt.le)⟩
  refine Or.inr ⟨rf.currentTerm, le_rfl, (st.log i).take N, ⟨⟨i, hlead⟩, ?_, ?_, Q, hQ, ?_⟩,
    List.prefix_rfl⟩
  · rw [hown]
    exact List.take_prefix _ _
  · rw [← h.log.entryAt?_term (h.included.trans hlt.le) hentry, hterm]
  · intro p hp
    rw [hlen]
    rcases h.matched hstate p with hle | hacked
    · exact absurd (hmatch p hp) (by omega)
    · exact hinv.acks.down hacked (hmatch p hp)

/-- `handleSendAppendEntries` in the ledger. -/
theorem PeerRel.handleSendAppendEntries (hinv : st.Inv) (h : PeerRel st i rf)
    {r : Rpc n (AppendEntriesArgs n Cmd) AppendEntriesReply} (hcall : AppendCall st r)
    {reply : AppendEntriesReply} (hreply : r.reply = some reply)
    (hrf : rf.handleSendAppendEntries r.dst r.args reply = some rf') :
    ∃ st', Book.Moves i st st' ∧ PeerRel st' i rf' := by
  rcases handleSendAppendEntries_cases hrf with
    rfl | ⟨-, -, hlt, rfl⟩ | ⟨hterm, hstate, hsucc, hcommit⟩ | ⟨-, -, -, rfl⟩
  · exact ⟨st, .refl, h⟩
  · obtain ⟨st', hm, -, hrel⟩ := h.bump hinv hlt rf.votedFor
    exact ⟨st', hm, hrel.persist⟩
  · have hack := hcall.success reply hreply hsucc
    rw [← hterm] at hack
    exact ⟨st, .refl, (h.recordMatch hack _).checkAndCommitLogs hinv hstate hcommit⟩
  · exact ⟨st, .refl, h.unseen _ _ _ _ _ _⟩

/-- `handleSendInstallSnapshot` in the ledger. -/
theorem PeerRel.handleSendInstallSnapshot (hinv : st.Inv) (h : PeerRel st i rf)
    {r : Rpc n (InstallSnapshotArgs n) InstallSnapshotReply} (hcall : InstallCall st r)
    {reply : InstallSnapshotReply} (hreply : r.reply = some reply) :
    ∃ st', Book.Moves i st st' ∧
      PeerRel st' i (rf.handleSendInstallSnapshot r.dst r.args reply) := by
  rcases handleSendInstallSnapshot_cases rf r.dst r.args reply with
    he | ⟨-, -, hlt, he⟩ | ⟨hterm, hstate, hle, he⟩
  · rw [he]
    exact ⟨st, .refl, h⟩
  · obtain ⟨st', hm, -, hrel⟩ := h.bump hinv hlt rf.votedFor
    rw [he]
    exact ⟨st', hm, hrel.persist⟩
  · have hack := hcall.success reply hreply (hterm ▸ hle)
    rw [← hterm] at hack
    rw [he]
    exact ⟨st, .refl, h.recordMatch hack _⟩

/-- `Snapshot` leaves the ledger alone. -/
theorem PeerRel.snapshotUpTo (h : PeerRel st i rf) {index : ℕ} {data : Bytes}
    (hrf : rf.snapshotUpTo index data = some rf') : PeerRel st i rf' := by
  rcases snapshotUpTo_cases hrf with rfl | ⟨hcom, hinc, entry, hentry, rfl⟩
  · exact h
  · refine ⟨h.term, ?_, h.vote, h.candidate, h.leader, h.own, h.committed, h.chosen, hcom,
      h.matched⟩
    exact h.log.compact hinc (hcom.trans h.committed) hentry

end Raft

end DistributedLabs
