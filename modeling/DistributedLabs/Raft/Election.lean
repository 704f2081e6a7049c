import DistributedLabs.Raft.Ballots
import DistributedLabs.Logic.Quorum

/-!
# Election safety

A peer votes for a candidate by granting one of its calls, and a candidate votes
for itself by standing; both stay visible in the calls of the cluster. The
invariant says that the votes of a peer are recorded in its memory and in its
persister, so that a peer votes for at most one candidate in a term, and that a
leader has the votes of a majority.

`readPersist` restores the persisted term in the place of the persisted vote. A
restart is harmless when the peer had not voted, when its vote happens to equal
its term, or when its term is no peer's index, so that nobody can collect a
second vote; `restartSafe` states this, and without it the property fails.
-/

namespace DistributedLabs

namespace Raft

variable {n : ℕ} {Cmd : Type*}

/-- The peer `v` has voted for `s` in the term `t`: `s` has stood in that term and
is `v` itself or has been granted a call by `v`. -/
def voted (c : Cluster n Cmd) (v s : Fin n) (t : ℕ) : Prop :=
  ∃ r ∈ c.votes, r.src = s ∧ r.args.term = t ∧ (v = s ∨ (r.dst = v ∧ VoteRpc.granted r))

/-- A term and a vote that leave no second vote in the term `t` to anybody but
`s`: the term has passed, the vote is for `s`, or it is for no peer at all. -/
def recorded (term : ℕ) (votedFor : ℤ) (t : ℕ) (s : Fin n) : Prop :=
  t < term ∨ (t = term ∧ (votedFor = (s : ℕ) ∨ (n : ℤ) ≤ votedFor))

theorem recorded_mono {term term' t : ℕ} {votedFor votedFor' : ℤ} {s : Fin n}
    (h : recorded term votedFor t s) (hterm : term ≤ term')
    (hvote : term' = term → votedFor' = votedFor) : recorded term' votedFor' t s := by
  rcases h with h | ⟨h, hv⟩
  · exact Or.inl (h.trans_le hterm)
  · rcases hterm.lt_or_eq with hlt | heq
    · exact Or.inl (h ▸ hlt)
    · exact Or.inr ⟨h.trans heq, hvote heq.symm ▸ hv⟩

theorem recorded_le {term t : ℕ} {votedFor : ℤ} {s : Fin n} (h : recorded term votedFor t s) :
    t ≤ term := by
  rcases h with h | ⟨h, -⟩
  · exact h.le
  · exact h.le

/-- The peer `i` has the votes of a majority in the term `t`. -/
def elected (c : Cluster n Cmd) (i : Fin n) (t : ℕ) : Prop :=
  ∃ Vs : Finset (Fin n), (majority n).IsQuorum Vs ∧ ∀ v ∈ Vs, voted c v i t

/-- The votes of the peers are recorded and saved, no peer votes twice in a term,
and every leader is elected. -/
structure ElectionInv (c : Cluster n Cmd) : Prop where
  ballots : BallotInv c
  current : ∀ v s t, voted c v s t →
    recorded (c.peers v).rf.currentTerm (c.peers v).rf.votedFor t s
  saved : ∀ v s t, voted c v s t → ∃ status,
    (c.peers v).rf.persister.raftstate = some status ∧
      recorded status.currentTerm status.votedFor t s
  unique : ∀ v s s' t, voted c v s t → voted c v s' t → s = s'
  leaders : ∀ i, (c.peers i).rf.state = .leader → elected c i (c.peers i).rf.currentTerm

theorem electionInv_init (n : ℕ) (Cmd : Type*) : ElectionInv (Cluster.init n Cmd) where
  ballots := ballotInv_init n Cmd
  current v s t h := by
    obtain ⟨r, hr, -⟩ := h
    cases hr
  saved v s t h := by
    obtain ⟨r, hr, -⟩ := h
    cases hr
  unique v s s' t h := by
    obtain ⟨r, hr, -⟩ := h
    cases hr
  leaders i h := by cases h

/-! ## Votes are kept -/

/-- What is true of a call and depends only on its caller, its callee, its arguments
and on a vote it has been granted stays true of it. -/
theorem exists_vote_mono {c c' : Cluster n Cmd} {a : Cluster.Act n Cmd} (hs : ElectionStep c a c')
    {P : VoteRpc n → Prop} (hP : ∀ r y : VoteRpc n, y.src = r.src → y.dst = r.dst →
      y.args = r.args → (r.granted → y.granted) → P r → P y)
    (h : ∃ r ∈ c.votes, P r) : ∃ r ∈ c'.votes, P r := by
  cases hs with
  | quiet i others inst votes peer =>
      rw [votes]
      exact h
  | stand i others inst votes peer =>
      obtain ⟨r, hr, hv⟩ := h
      exact ⟨r, by rw [votes]; exact List.mem_append_left _ hr, hv⟩
  | refuse k r reply call fresh others inst votes refused peer =>
      rw [votes]
      refine exists_mem_set call (hP _ _ rfl rfl rfl ?_) h
      rintro ⟨reply', hr, -⟩
      rw [fresh] at hr
      cases hr
  | grant k r reply call fresh others inst votes granted peer =>
      rw [votes]
      refine exists_mem_set call (hP _ _ rfl rfl rfl ?_) h
      rintro ⟨reply', hr, -⟩
      rw [fresh] at hr
      cases hr
  | take k r reply call fresh answer hinst others inst votes peer =>
      rw [votes]
      exact exists_mem_set call (hP _ _ rfl rfl rfl id) h
  | restart i act others votes peer =>
      rw [votes]
      exact h

/-- A vote is never lost. -/
theorem voted_mono {c c' : Cluster n Cmd} {a : Cluster.Act n Cmd} (hs : ElectionStep c a c')
    {v s : Fin n} {t : ℕ} (h : voted c v s t) : voted c' v s t := by
  refine exists_vote_mono hs ?_ h
  rintro r y hsrc hdst hargs hkeep ⟨hs, ht, hv⟩
  refine ⟨hsrc.trans hs, by rw [hargs, ht], ?_⟩
  rcases hv with hv | ⟨hd, hg⟩
  · exact Or.inl hv
  · exact Or.inr ⟨hdst.trans hd, hkeep hg⟩

theorem elected_mono {c c' : Cluster n Cmd} {a : Cluster.Act n Cmd} (hs : ElectionStep c a c')
    {i : Fin n} {t : ℕ}
    (h : elected c i t) : elected c' i t := by
  obtain ⟨Vs, hq, hVs⟩ := h
  exact ⟨Vs, hq, fun v hv => voted_mono hs (hVs v hv)⟩

/-- A call replaced by one that carries no new grant gives no new vote. -/
theorem voted_of_voted_set {c c' : Cluster n Cmd} {k : ℕ} {r y : VoteRpc n}
    (call : c.votes[k]? = some r) (votes : c'.votes = c.votes.set k y)
    (hsrc : y.src = r.src) (hdst : y.dst = r.dst) (hargs : y.args = r.args)
    (hnew : y.granted → r.granted) {v s : Fin n} {t : ℕ} (h : voted c' v s t) :
    voted c v s t := by
  obtain ⟨r', hr', hs, ht, hv⟩ := h
  rw [votes] at hr'
  rcases List.mem_or_eq_of_mem_set hr' with hr' | rfl
  · exact ⟨r', hr', hs, ht, hv⟩
  · refine ⟨r, List.mem_of_getElem? call, by rw [← hsrc, hs], by rw [← hargs, ht], ?_⟩
    rcases hv with hv | ⟨hd, hg⟩
    · exact Or.inl hv
    · exact Or.inr ⟨hdst ▸ hd, hnew hg⟩

/-! ## The invariant is kept -/

/-- A step of one peer without a new vote. -/
theorem ElectionInv.of_same {c c' : Cluster n Cmd} (h : ElectionInv c) (hb : BallotInv c')
    {i : Fin n} (others : ∀ j, j ≠ i → c'.peers j = c.peers j)
    (hold : ∀ v s t, voted c' v s t → voted c v s t)
    (hkeep : ∀ v s t, voted c v s t → voted c' v s t)
    (term : (c.peers i).rf.currentTerm ≤ (c'.peers i).rf.currentTerm)
    (vote : (c'.peers i).rf.currentTerm = (c.peers i).rf.currentTerm →
      (c'.peers i).rf.votedFor = (c.peers i).rf.votedFor)
    (saved : (c'.peers i).rf.persister.raftstate = (c.peers i).rf.persister.raftstate ∨
      (c'.peers i).rf.persister.raftstate = some (c'.peers i).rf.status)
    (lead : (c'.peers i).rf.state = .leader → elected c' i (c'.peers i).rf.currentTerm) :
    ElectionInv c' := by
  have hcurrent : ∀ v s t, voted c' v s t →
      recorded (c'.peers v).rf.currentTerm (c'.peers v).rf.votedFor t s := by
    intro v s t hv
    have hrec := h.current v s t (hold v s t hv)
    by_cases hvi : v = i
    · subst hvi
      exact recorded_mono hrec term vote
    · rw [others v hvi]
      exact hrec
  refine ⟨hb, hcurrent, fun v s t hv => ?_, fun v s s' t hv hv' => ?_, fun j hj => ?_⟩
  · by_cases hvi : v = i
    · subst hvi
      rcases saved with hsaved | hsaved
      · rw [hsaved]
        exact h.saved v s t (hold v s t hv)
      · exact ⟨_, hsaved, hcurrent v s t hv⟩
    · rw [others v hvi]
      exact h.saved v s t (hold v s t hv)
  · exact h.unique v s s' t (hold v s t hv) (hold v s' t hv')
  · by_cases hji : j = i
    · subst hji
      exact lead hj
    · rw [others j hji] at hj ⊢
      obtain ⟨Vs, hq, hVs⟩ := h.leaders j hj
      exact ⟨Vs, hq, fun v hv => hkeep v j _ (hVs v hv)⟩

/-- A step in which the peer `i` votes for `w` in the term it ends in. -/
theorem ElectionInv.of_vote {c c' : Cluster n Cmd} (h : ElectionInv c) (hb : BallotInv c')
    {i w : Fin n} (others : ∀ j, j ≠ i → c'.peers j = c.peers j)
    (hold : ∀ v s t, voted c' v s t →
      voted c v s t ∨ (v = i ∧ s = w ∧ t = (c'.peers i).rf.currentTerm))
    (hkeep : ∀ v s t, voted c v s t → voted c' v s t)
    (term : (c.peers i).rf.currentTerm ≤ (c'.peers i).rf.currentTerm)
    (vote : (c'.peers i).rf.votedFor = (w : ℕ))
    (free : ∀ s, voted c i s (c'.peers i).rf.currentTerm → s = w)
    (saved : (c'.peers i).rf.persister.raftstate = some (c'.peers i).rf.status)
    (lead : (c'.peers i).rf.state = .leader → (c.peers i).rf.state = .leader ∧
      (c'.peers i).rf.currentTerm = (c.peers i).rf.currentTerm) :
    ElectionInv c' := by
  have hmine : ∀ s t, voted c' i s t →
      recorded (c'.peers i).rf.currentTerm (c'.peers i).rf.votedFor t s := by
    intro s t hv
    rcases hold i s t hv with hv | ⟨-, rfl, rfl⟩
    · have hle := (recorded_le (h.current i s t hv)).trans term
      rcases hle.lt_or_eq with hlt | rfl
      · exact Or.inl hlt
      · obtain rfl := free s hv
        exact Or.inr ⟨rfl, Or.inl vote⟩
    · exact Or.inr ⟨rfl, Or.inl vote⟩
  refine ⟨hb, fun v s t hv => ?_, fun v s t hv => ?_, fun v s s' t hv hv' => ?_, fun j hj => ?_⟩
  · by_cases hvi : v = i
    · subst hvi
      exact hmine s t hv
    · rw [others v hvi]
      rcases hold v s t hv with hv | ⟨rfl, -⟩
      · exact h.current v s t hv
      · exact absurd rfl hvi
  · by_cases hvi : v = i
    · subst hvi
      exact ⟨_, saved, hmine s t hv⟩
    · rw [others v hvi]
      rcases hold v s t hv with hv | ⟨rfl, -⟩
      · exact h.saved v s t hv
      · exact absurd rfl hvi
  · rcases hold v s t hv with hv | ⟨rfl, rfl, rfl⟩
    · rcases hold v s' t hv' with hv' | ⟨rfl, rfl, rfl⟩
      · exact h.unique v s s' t hv hv'
      · exact free s hv
    · rcases hold v s' _ hv' with hv' | ⟨-, rfl, -⟩
      · exact (free s' hv').symm
      · rfl
  · by_cases hji : j = i
    · subst hji
      obtain ⟨hs, ht⟩ := lead hj
      obtain ⟨Vs, hq, hVs⟩ := h.leaders j hs
      exact ⟨Vs, hq, fun v hv => hkeep v j _ (ht ▸ hVs v hv)⟩
    · rw [others j hji] at hj ⊢
      obtain ⟨Vs, hq, hVs⟩ := h.leaders j hj
      exact ⟨Vs, hq, fun v hv => hkeep v j _ (hVs v hv)⟩

/-- A candidate that wins has counted a majority of distinct voters. -/
theorem elected_of_counted {c : Cluster n Cmd} {i : Fin n}
    (hstood : ∃ r ∈ c.votes, r.src = i ∧ r.args.term = (c.peers i).rf.currentTerm)
    {Vs : Finset (Fin n)} (hmaj : n / 2 < Vs.card)
    (hVs : ∀ v ∈ Vs, v = i ∨ ∃ r ∈ c.votes, takenGrant c i v r) :
    elected c i (c.peers i).rf.currentTerm := by
  refine ⟨Vs, hmaj, fun v hv => ?_⟩
  rcases hVs v hv with rfl | ⟨r, hr, -, hg, hkey⟩
  · obtain ⟨r, hr, hsrc, hterm⟩ := hstood
    exact ⟨r, hr, hsrc, hterm, Or.inl rfl⟩
  · simp only [VoteRpc.key, Prod.mk.injEq] at hkey
    exact ⟨r, hr, hkey.1, hkey.2.2.1, Or.inr ⟨hkey.2.2.2, hg⟩⟩

/-- The restarts that cannot give a second vote away: the persisted status holds
no vote, its vote equals its term, or its term is no peer's index. -/
def restartSafe (c : Cluster n Cmd) : Cluster.Act n Cmd → Prop
  | .restart i =>
    match (c.peers i).rf.persister.raftstate with
    | none => True
    | some status => status.votedFor = noVote ∨ status.votedFor = status.currentTerm ∨
        n ≤ status.currentTerm
  | _ => True

instance (c : Cluster n Cmd) (a : Cluster.Act n Cmd) : Decidable (restartSafe c a) := by
  unfold restartSafe
  split
  · split <;> infer_instance
  · infer_instance

/-- A safe restart reads back a term and a vote that still record every vote. -/
theorem recorded_restart {term : ℕ} {votedFor : ℤ} {t : ℕ} {s : Fin n}
    (hsafe : votedFor = noVote ∨ votedFor = term ∨ n ≤ term)
    (h : recorded term votedFor t s) : recorded term term t s := by
  rcases h with h | ⟨h, hv⟩
  · exact Or.inl h
  · refine Or.inr ⟨h, ?_⟩
    have hs := s.isLt
    rcases hsafe with hsafe | hsafe | hsafe
    · rw [hsafe, noVote] at hv
      omega
    · rw [hsafe] at hv
      exact hv
    · exact Or.inr (by exact_mod_cast hsafe)

/-- The status that a restart reads back. -/
theorem restart_current {p : Peer n Cmd} {status : PersistentStatus Cmd}
    (h : p.rf.persister.raftstate = some status) :
    p.restart.rf.currentTerm = status.currentTerm ∧
      p.restart.rf.votedFor = status.currentTerm ∧
      p.restart.rf.persister = p.rf.persister := by
  simp [Peer.restart, Peer.make, make, readPersist, h]

theorem ElectionInv.restart {c c' : Cluster n Cmd} (h : ElectionInv c) (hb : BallotInv c')
    {i : Fin n} (hsafe : restartSafe c (.restart i))
    (others : ∀ j, j ≠ i → c'.peers j = c.peers j) (votes : c'.votes = c.votes)
    (peer : c'.peers i = (c.peers i).restart) : ElectionInv c' := by
  have hold : ∀ v s t, voted c' v s t → voted c v s t := by
    intro v s t hv
    rwa [voted, votes] at hv
  -- the persisted status of a peer that has voted passes the test of `restartSafe`
  have hmine : ∀ s t, voted c i s t → ∃ status,
      (c.peers i).rf.persister.raftstate = some status ∧
        recorded status.currentTerm status.votedFor t s ∧
        recorded status.currentTerm status.currentTerm t s := by
    intro s t hv
    obtain ⟨status, hstatus, hrec⟩ := h.saved i s t hv
    rw [restartSafe, hstatus] at hsafe
    exact ⟨status, hstatus, hrec, recorded_restart hsafe hrec⟩
  refine ⟨hb, fun v s t hv => ?_, fun v s t hv => ?_, fun v s s' t hv hv' => ?_, fun j hj => ?_⟩
  · by_cases hvi : v = i
    · subst hvi
      obtain ⟨status, hstatus, -, hrec⟩ := hmine s t (hold v s t hv)
      obtain ⟨hterm, hvote, -⟩ := restart_current hstatus
      rwa [peer, hterm, hvote]
    · rw [others v hvi]
      exact h.current v s t (hold v s t hv)
  · by_cases hvi : v = i
    · subst hvi
      obtain ⟨status, hstatus, hrec, -⟩ := hmine s t (hold v s t hv)
      obtain ⟨-, -, hsaved⟩ := restart_current hstatus
      exact ⟨status, by rw [peer, hsaved, hstatus], hrec⟩
    · rw [others v hvi]
      exact h.saved v s t (hold v s t hv)
  · exact h.unique v s s' t (hold v s t hv) (hold v s' t hv')
  · by_cases hji : j = i
    · subst hji
      rw [peer, restart_state] at hj
      cases hj
    · rw [others j hji] at hj ⊢
      obtain ⟨Vs, hq, hVs⟩ := h.leaders j hj
      refine ⟨Vs, hq, fun v hv => ?_⟩
      rw [voted, votes]
      exact hVs v hv

/-- A quiet step of one peer gives no new vote and makes no new leader. -/
theorem ElectionInv.of_quiet {c c' : Cluster n Cmd} (h : ElectionInv c) (hb : BallotInv c')
    {i : Fin n} (others : ∀ j, j ≠ i → c'.peers j = c.peers j)
    (hold : ∀ v s t, voted c' v s t → voted c v s t)
    (hkeep : ∀ v s t, voted c v s t → voted c' v s t)
    (peer : Quiet (c.peers i).rf (c'.peers i).rf) : ElectionInv c' := by
  refine h.of_same hb others hold hkeep peer.term peer.vote peer.saved fun hl => ?_
  obtain ⟨hs, ht⟩ := leader_of_role peer.role hl
  obtain ⟨Vs, hq, hVs⟩ := h.leaders i hs
  exact ⟨Vs, hq, fun v hv => hkeep v i _ (ht ▸ hVs v hv)⟩

/-- The new votes when a peer stands are those for itself. -/
theorem voted_of_stand {c c' : Cluster n Cmd} {i : Fin n}
    (votes : c'.votes = c.votes ++ callsOf i (c.peers i).inst (c.peers i).rf)
    {v s : Fin n} {t : ℕ} (hv : voted c' v s t) :
    voted c v s t ∨ (v = i ∧ s = i ∧ t = (c.peers i).rf.currentTerm + 1) := by
  obtain ⟨r, hr, hsrc, ht, hv⟩ := hv
  rw [votes] at hr
  rcases List.mem_append.mp hr with hr | hr
  · exact Or.inl ⟨r, hr, hsrc, ht, hv⟩
  · obtain ⟨hi, -, -, hterm, -, hnone⟩ := of_mem_callsOf hr
    have hs : s = i := hsrc.symm.trans hi
    rcases hv with hv | ⟨-, reply, hreply, -⟩
    · exact Or.inr ⟨hv.trans hs, hs, ht.symm.trans hterm⟩
    · cases hnone.symm.trans hreply

/-- The new vote when a request is granted is the one of its receiver. -/
theorem voted_of_grant {c c' : Cluster n Cmd} {k : ℕ} {r : VoteRpc n} {reply : RequestVoteReply}
    (call : c.votes[k]? = some r)
    (votes : c'.votes = c.votes.set k { r with reply := some reply })
    {v s : Fin n} {t : ℕ} (hv : voted c' v s t) :
    voted c v s t ∨ (v = r.dst ∧ s = r.src ∧ t = r.args.term) := by
  obtain ⟨r', hr', hsrc, ht, hv⟩ := hv
  rw [votes] at hr'
  rcases List.mem_or_eq_of_mem_set hr' with hr' | rfl
  · exact Or.inl ⟨r', hr', hsrc, ht, hv⟩
  · rcases hv with hv | ⟨hdst, -⟩
    · exact Or.inl ⟨r, List.mem_of_getElem? call, hsrc, ht, Or.inl hv⟩
    · exact Or.inr ⟨hdst.symm, hsrc.symm, ht.symm⟩

/-- A peer that grants a request has voted for no other candidate in its term: an
earlier vote is the one that `votedFor` records. -/
theorem ElectionInv.eq_of_grants {c : Cluster n Cmd} (h : ElectionInv c) {i s : Fin n}
    {args : RequestVoteArgs n} {rf' : Raft n Cmd} (peer : Grants args (c.peers i).rf rf')
    (hv : voted c i s args.term) : s = args.candidateId := by
  have hslt := s.isLt
  have hclt := args.candidateId.isLt
  rcases h.current i s _ hv with hlt | ⟨heq, hrec⟩
  · have := peer.term
    omega
  · apply Fin.ext
    rcases peer.free heq.symm with hfree | hfree
    · rw [hfree, noVote] at hrec
      omega
    · rw [hfree] at hrec
      omega

/-- The votes of a peer are kept through every step whose restarts are safe. -/
theorem ElectionInv.step {c c' : Cluster n Cmd} {a : Cluster.Act n Cmd} (h : ElectionInv c)
    (hsafe : restartSafe c a) (hs : ElectionStep c a c') : ElectionInv c' := by
  have hb := h.ballots.step hs
  have hkeep : ∀ v s t, voted c v s t → voted c' v s t := fun v s t => voted_mono hs
  cases hs with
  | quiet i others inst votes peer =>
      refine h.of_quiet hb others (fun v s t hv => ?_) hkeep peer
      rwa [voted, votes] at hv
  | stand i others inst votes peer =>
      have hterm : (c'.peers i).rf.currentTerm = (c.peers i).rf.currentTerm + 1 := by
        rw [peer]
        rfl
      refine h.of_vote hb (i := i) (w := i) others (fun v s t hv => ?_) hkeep (by omega) ?_ ?_ ?_ ?_
      · rw [hterm]
        exact voted_of_stand votes hv
      · rw [peer]
        exact congrArg (fun m : Fin n => ((m : ℕ) : ℤ)) (h.ballots.me i)
      · intro s hv
        have hle := recorded_le (h.current i s _ hv)
        omega
      · rw [peer]
        rfl
      · intro hl
        rw [peer] at hl
        cases hl
  | refuse k r reply call fresh others inst votes refused peer =>
      refine h.of_quiet hb others (fun v s t => ?_) hkeep peer
      refine voted_of_voted_set call votes rfl rfl rfl ?_
      rintro ⟨reply', hreply, hg⟩
      obtain rfl := Option.some.inj hreply
      rw [refused] at hg
      cases hg
  | grant k r reply call fresh others inst votes granted peer =>
      have hcand := (h.ballots.calls r (List.mem_of_getElem? call)).1
      refine h.of_vote hb (i := r.dst) (w := r.src) others (fun v s t hv => ?_) hkeep
        (peer.newTerm ▸ peer.term) (by rw [peer.newVote, hcand]) (fun s hv => ?_) peer.saved
        (leader_of_role peer.role)
      · rw [peer.newTerm]
        exact voted_of_grant call votes hv
      · rw [peer.newTerm] at hv
        exact (h.eq_of_grants peer hv).trans hcand
  | take k r reply call fresh answer hinst others inst votes peer =>
      have hold : ∀ v s t, voted c' v s t → voted c v s t := fun v s t =>
        voted_of_voted_set call votes rfl rfl rfl id
      rcases peer with peer | ⟨hterm, peer⟩
      · exact h.of_quiet hb others hold hkeep peer
      · refine h.of_same hb others hold hkeep peer.term.ge (fun _ => peer.vote)
          (Or.inl (by rw [peer.saved])) fun hl => ?_
        obtain ⟨Vs, hcard, hVs⟩ :=
          h.ballots.counted call fresh answer hinst inst votes hterm peer
        obtain ⟨hlt, -⟩ := List.getElem?_eq_some_iff.mp call
        refine elected_of_counted ⟨{ r with taken := true }, ?_, rfl, ?_⟩
          (hcard ▸ peer.win hl) hVs
        · rw [votes]
          exact List.mem_set hlt _
        · rw [peer.term, hterm]
  | restart i act others votes peer =>
      subst act
      exact h.restart hb hsafe others votes peer

/-! ## No two leaders in a term -/

theorem electionInv_exec {c c' : Cluster n Cmd} {acts : List (Cluster.Act n Cmd)}
    (h : ElectionInv c) (hsafe : meets Cluster.step restartSafe c acts)
    (hexec : exec Cluster.step c acts = some c') : ElectionInv c' :=
  exec_invariant (fun _ _ _ hI ha hs => hI.step ha (electionStep_of_step hs)) h hsafe hexec

theorem elected_exec {c c' : Cluster n Cmd} {acts : List (Cluster.Act n Cmd)} {i : Fin n} {t : ℕ}
    (h : elected c i t) (hexec : exec Cluster.step c acts = some c') : elected c' i t :=
  exec_preserves (fun _ _ _ hI hs => elected_mono (electionStep_of_step hs) hI) h hexec

/-- Two peers with the votes of a majority in one term are the same peer. -/
theorem ElectionInv.elected_unique {c : Cluster n Cmd} (h : ElectionInv c) {i j : Fin n} {t : ℕ}
    (hi : elected c i t) (hj : elected c j t) : i = j := by
  obtain ⟨Vs, hq, hVs⟩ := hi
  obtain ⟨Ws, hq', hWs⟩ := hj
  obtain ⟨v, hv, hv'⟩ := (majority n).inter hq hq'
  exact h.unique v i j t (hVs v hv) (hWs v hv')

/-- The votes behind a leader are still there at the end of the run. -/
theorem elected_of_passes {c c' : Cluster n Cmd} {acts : List (Cluster.Act n Cmd)} {i : Fin n}
    (hsafe : meets Cluster.step restartSafe (Cluster.init n Cmd) acts)
    (hexec : exec Cluster.step (Cluster.init n Cmd) acts = some c')
    (hpass : passes Cluster.step (Cluster.init n Cmd) acts c)
    (hlead : (c.peers i).rf.state = .leader) : elected c' i (c.peers i).rf.currentTerm := by
  obtain ⟨before, after, rfl, hbefore⟩ := hpass
  have hinv := electionInv_exec (electionInv_init n Cmd) ((meets_append hbefore).mp hsafe).1 hbefore
  rw [exec_append, hbefore] at hexec
  exact elected_exec (hinv.leaders i hlead) hexec

/-- Election safety: in a run whose restarts are safe, two peers that are leaders
in the same term, at whatever moments of the run, are the same peer. -/
theorem leader_unique_of_restartSafe {acts : List (Cluster.Act n Cmd)} {c c₁ c₂ : Cluster n Cmd}
    (hexec : exec Cluster.step (Cluster.init n Cmd) acts = some c)
    (hsafe : meets Cluster.step restartSafe (Cluster.init n Cmd) acts)
    (h₁ : passes Cluster.step (Cluster.init n Cmd) acts c₁)
    (h₂ : passes Cluster.step (Cluster.init n Cmd) acts c₂) {i j : Fin n}
    (hi : (c₁.peers i).rf.state = .leader) (hj : (c₂.peers j).rf.state = .leader)
    (hterm : (c₁.peers i).rf.currentTerm = (c₂.peers j).rf.currentTerm) : i = j := by
  have hinv := electionInv_exec (electionInv_init n Cmd) hsafe hexec
  refine hinv.elected_unique (elected_of_passes hsafe hexec h₁ hi) ?_
  rw [hterm]
  exact elected_of_passes hsafe hexec h₂ hj

/-- Peer 0 wins term 1 with the vote of peer 2, which then restarts. Its restored
vote is its term, so peer 1 wins the same term with a second vote of peer 2. -/
def secondVote : List (Cluster.Act 3 ℕ) :=
  [.ticker 0, .requestVote 1, .voteReply 1, .restart 2, .ticker 1, .requestVote 3, .voteReply 3]

theorem secondVote_two_leaders : ∃ c, exec Cluster.step (Cluster.init 3 ℕ) secondVote = some c ∧
    (c.peers 0).rf.state = .leader ∧ (c.peers 1).rf.state = .leader ∧
    (c.peers 0).rf.currentTerm = (c.peers 1).rf.currentTerm :=
  ⟨_, rfl, by decide, by decide, by decide⟩

/-- Peer 1 wins term 1 with the vote of peer 2, whose restart keeps the vote 1. -/
def keptVote : List (Cluster.Act 3 ℕ) :=
  [.ticker 1, .requestVote 1, .voteReply 1, .restart 2, .ticker 0, .requestVote 3, .voteReply 3]

theorem keptVote_leader_unique : ∃ c, exec Cluster.step (Cluster.init 3 ℕ) keptVote = some c ∧
    (c.peers 1).rf.state = .leader ∧ (c.peers 0).rf.currentTerm = (c.peers 1).rf.currentTerm ∧
    ∀ j, (c.peers j).rf.state = .leader →
      (c.peers 1).rf.currentTerm = (c.peers j).rf.currentTerm → 1 = j :=
  ⟨_, rfl, by decide, by decide, fun _ =>
    leader_unique_of_restartSafe (show exec Cluster.step (Cluster.init 3 ℕ) keptVote = some _
      from rfl) (by decide) (passes_last rfl) (passes_last rfl) (by decide)⟩

end Raft

end DistributedLabs
