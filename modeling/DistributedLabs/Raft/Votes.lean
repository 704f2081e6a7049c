import DistributedLabs.Raft.Election

/-!
# Whether `votedFor` is honest

`votedFor` is meant to say for whom a peer has voted in its present term, so that
every place that adopts a larger term has to forget the vote. `VoteStep` lists what
a step of a peer does to its term and its vote. The two places that do not forget are
the replies of `AppendEntries` and `InstallSnapshot` that depose a leader: it keeps
the vote for itself in a term in which it has not stood.
-/

namespace DistributedLabs

namespace Raft

variable {n : ℕ} {Cmd : Type*}

/-- The peer still leads in the term of its request, and the reply is of a larger
term. -/
def DeposedBy (rf : Raft n Cmd) (term replyTerm : ℕ) : Prop :=
  rf.state = .leader ∧ rf.currentTerm = term ∧ rf.currentTerm < replyTerm

instance (rf : Raft n Cmd) (term replyTerm : ℕ) : Decidable (rf.DeposedBy term replyTerm) :=
  inferInstanceAs
    (Decidable (rf.state = .leader ∧ rf.currentTerm = term ∧ rf.currentTerm < replyTerm))

namespace Peer

/-- The step is a reply that deposes a leader. -/
def Deposed (p : Peer n Cmd) : Act n Cmd → Prop
  | .appendReply _ args reply => p.rf.DeposedBy args.term reply.term
  | .snapshotReply _ args reply => p.rf.DeposedBy args.term reply.term
  | _ => False

/-- What a step of a peer does to its term and its vote. -/
inductive VoteStep (p : Peer n Cmd) (b : Act n Cmd) (p' : Peer n Cmd) : Prop where
  | kept (term : p'.rf.currentTerm = p.rf.currentTerm) (vote : p'.rf.votedFor = p.rf.votedFor)
  | forgot (term : p.rf.currentTerm < p'.rf.currentTerm) (vote : p'.rf.votedFor = noVote)
  | stood (act : b = .ticker) (term : p'.rf.currentTerm = p.rf.ticker.1.currentTerm)
      (vote : p'.rf.votedFor = (p.rf.me : ℕ))
  | granted (args : RequestVoteArgs n) (act : b = .requestVote args)
      (raised : p.rf.currentTerm ≤ args.term) (term : p'.rf.currentTerm = args.term)
      (vote : p'.rf.votedFor = (args.candidateId : ℕ))
      (reply : (p.rf.requestVote args).2.voteGranted = true)
  | deposed (act : p.Deposed b) (term : p.rf.currentTerm < p'.rf.currentTerm)
      (vote : p'.rf.votedFor = p.rf.votedFor)

theorem VoteStep.term_le {p p' : Peer n Cmd} {b : Act n Cmd} (h : VoteStep p b p') :
    p.rf.currentTerm ≤ p'.rf.currentTerm := by
  cases h with
  | kept term vote => exact term.ge
  | forgot term vote => exact term.le
  | stood act term vote =>
      rw [term]
      exact Nat.le_succ _
  | granted args act raised term vote reply => exact raised.trans_eq term.symm
  | deposed act term vote => exact term.le

/-- A peer that adopts the term of a request keeps its vote with its term or forgets
it. -/
theorem VoteStep.of_adoptTerm {p p' : Peer n Cmd} {b : Act n Cmd} {term : ℕ}
    (hterm : p'.rf.currentTerm = (p.rf.adoptTerm term).currentTerm)
    (hvote : p'.rf.votedFor = (p.rf.adoptTerm term).votedFor) : VoteStep p b p' := by
  rcases adoptTerm_cases p.rf term with ⟨-, he⟩ | ⟨hlt, he⟩
  · rw [he] at hterm hvote
    exact .kept hterm hvote
  · rw [he] at hterm hvote
    exact .forgot (hterm ▸ hlt) hvote

theorem voteStep_requestVote (p : Peer n Cmd) (args : RequestVoteArgs n) :
    VoteStep p (.requestVote args) (p.setRf (p.rf.requestVote args).1) := by
  rcases requestVote_cases p.rf args with ⟨-, he⟩ | ⟨hle, he⟩ | ⟨hle, -, -, he⟩
  · rw [he]
    exact .kept rfl rfl
  · rw [he]
    rcases followTerm_cases p.rf args.term with ⟨-, hf⟩ | ⟨hlt, hf⟩
    · rw [hf]
      exact .kept rfl rfl
    · rw [hf]
      exact .forgot hlt rfl
  · refine .granted args rfl hle ?_ ?_ ?_
    · rw [he]
      rcases followTerm_cases p.rf args.term with ⟨hge, hf⟩ | ⟨-, hf⟩
      · rw [hf]
        exact le_antisymm hle hge
      · rw [hf]
        rfl
    · rw [he]
      rfl
    · rw [he]

theorem voteStep_appendEntries {p : Peer n Cmd} {args : AppendEntriesArgs n Cmd}
    {rf : Raft n Cmd} {reply : AppendEntriesReply}
    (h : p.rf.appendEntries args = some (rf, reply)) :
    VoteStep p (.appendEntries args) (p.setRf rf) := by
  rcases appendEntries_cases h with ⟨-, rfl, -⟩ | ⟨-, rf₁, hrep, rfl⟩
  · exact .kept rfl rfl
  · obtain ⟨logs, commitIndex, rfl⟩ := replicate_frame hrep
    rw [toFollower_adoptTerm]
    exact .of_adoptTerm rfl rfl

theorem voteStep_installSnapshot (p : Peer n Cmd) (args : InstallSnapshotArgs n) :
    VoteStep p (.installSnapshot args) (p.installSnapshot args).1 := by
  have hrf : (p.installSnapshot args).1.rf = (p.rf.installSnapshot args).1 := rfl
  rcases installSnapshot_cases p.rf args with ⟨-, he⟩ | ⟨-, -, he⟩ | ⟨-, -, -, he⟩
  · rw [he] at hrf
    exact .kept (congrArg Raft.currentTerm hrf) (congrArg Raft.votedFor hrf)
  · rw [he] at hrf
    have hterm := congrArg Raft.currentTerm hrf
    have hvote := congrArg Raft.votedFor hrf
    exact .of_adoptTerm hterm hvote
  · rw [he] at hrf
    have hterm := congrArg Raft.currentTerm hrf
    have hvote := congrArg Raft.votedFor hrf
    exact .of_adoptTerm hterm hvote

theorem voteStep_voteReply {p : Peer n Cmd} {args : RequestVoteArgs n} {reply : RequestVoteReply}
    {rf : Raft n Cmd} {out : List (Outgoing n Cmd)}
    (h : p.rf.handleVoteReply args reply = some (rf, out)) :
    VoteStep p (.voteReply args reply) (p.setRf rf) := by
  rcases handleVoteReply_cases h with ⟨rfl, -⟩ | ⟨hlt, -, rfl⟩ | ⟨-, -, -, rfl⟩ |
    ⟨-, -, -, rfl, -⟩
  · exact .kept rfl rfl
  · exact .forgot hlt rfl
  · rcases countVote_cases p.rf reply with ⟨-, he⟩ | ⟨-, he⟩ <;> rw [he] <;> exact .kept rfl rfl
  · rcases countVote_cases p.rf reply with ⟨-, he⟩ | ⟨-, he⟩ <;> rw [he] <;> exact .kept rfl rfl

theorem step_voteStep {p p' : Peer n Cmd} {b : Act n Cmd} (h : p.step b = some p') :
    VoteStep p b p' := by
  cases b with
  | ticker =>
      obtain rfl := Option.some.inj h
      exact .stood rfl rfl rfl
  | heartbeat =>
      obtain ⟨out, -, rfl⟩ := Option.map_eq_some_iff.mp h
      exact .kept rfl rfl
  | start command =>
      obtain rfl := Option.some.inj h
      obtain ⟨_, _, _, _, he⟩ := start_frame p.rf command
      rw [he]
      exact .kept rfl rfl
  | snapshot index data =>
      obtain ⟨rf, hrf, rfl⟩ := Option.map_eq_some_iff.mp h
      rcases snapshotUpTo_cases hrf with rfl | ⟨-, -, entry, -, rfl⟩
      · exact .kept rfl rfl
      · exact .kept rfl rfl
  | requestVote args =>
      obtain rfl := Option.some.inj h
      exact voteStep_requestVote p args
  | appendEntries args =>
      obtain ⟨⟨rf, reply⟩, hr, rfl⟩ := Option.map_eq_some_iff.mp h
      exact voteStep_appendEntries hr
  | installSnapshot args =>
      obtain rfl := Option.some.inj h
      exact voteStep_installSnapshot p args
  | voteReply args reply =>
      obtain ⟨⟨rf, out⟩, hr, rfl⟩ := Option.map_eq_some_iff.mp h
      exact voteStep_voteReply hr
  | appendReply peer args reply =>
      obtain ⟨rf, hrf, rfl⟩ := Option.map_eq_some_iff.mp h
      rcases handleSendAppendEntries_cases hrf with
        rfl | ⟨hterm, hleader, hlt, rfl⟩ | ⟨-, -, -, hcommit⟩ | ⟨-, -, -, rfl⟩
      · exact .kept rfl rfl
      · exact .deposed ⟨hleader, hterm, hlt⟩ hlt rfl
      · obtain ⟨N, rfl⟩ := checkAndCommitLogs_eq hcommit
        exact .kept rfl rfl
      · exact .kept rfl rfl
  | snapshotReply peer args reply =>
      obtain rfl := Option.some.inj h
      rcases handleSendInstallSnapshot_cases p.rf peer args reply with
        he | ⟨hterm, hleader, hlt, he⟩ | ⟨-, -, -, he⟩
      · rw [he]
        exact .kept rfl rfl
      · rw [he]
        exact .deposed ⟨hleader, hterm, hlt⟩ hlt rfl
      · rw [he]
        exact .kept rfl rfl
  | applier =>
      obtain ⟨-, -, flag, lastApplied, he⟩ := applierStep_frame h
      exact .kept (by rw [he]) (by rw [he])
  | poll k =>
      obtain ⟨sender, -, -, rfl⟩ := pollStep_eq_some.mp h
      exact .kept rfl rfl
  | send k =>
      obtain ⟨sender, -, -, rfl⟩ := sendStep_eq_some.mp h
      exact .kept rfl rfl

end Peer

theorem handleSendAppendEntries_of_deposedBy {rf : Raft n Cmd} {args : AppendEntriesArgs n Cmd}
    {reply : AppendEntriesReply} (h : rf.DeposedBy args.term reply.term) (peer : Fin n) :
    rf.handleSendAppendEntries peer args reply =
      some (persist { rf with currentTerm := reply.term, state := .follower }) := by
  obtain ⟨hleader, hterm, hlt⟩ := h
  rw [handleSendAppendEntries, if_neg (by simp [hleader, hterm]), if_pos hlt]

theorem handleSendInstallSnapshot_of_deposedBy {rf : Raft n Cmd} {args : InstallSnapshotArgs n}
    {reply : InstallSnapshotReply} (h : rf.DeposedBy args.term reply.term) (peer : Fin n) :
    rf.handleSendInstallSnapshot peer args reply =
      persist { rf with currentTerm := reply.term, state := .follower } := by
  obtain ⟨hleader, hterm, hlt⟩ := h
  rw [handleSendInstallSnapshot, if_neg (by simp [hleader, hterm]), if_pos hlt]

/-! ## Candidates and leaders have voted for themselves -/

/-- A peer that stands or leads holds the vote for itself. -/
def SelfVoted (rf : Raft n Cmd) : Prop := rf.state ≠ .follower → rf.votedFor = (rf.me : ℕ)

theorem SelfVoted.quiet {rf rf' : Raft n Cmd} (h : SelfVoted rf) (hq : Quiet rf rf') :
    SelfVoted rf' := by
  intro hstate
  rcases hq.role with hrole | ⟨hrole, hterm, -⟩
  · exact absurd hrole hstate
  · rw [hq.vote hterm, hq.me]
    exact h (hrole ▸ hstate)

/-- A peer that stands or leads grants nothing in its own term but the vote it has
already cast. -/
theorem SelfVoted.grants {rf rf' : Raft n Cmd} {args : RequestVoteArgs n} (h : SelfVoted rf)
    (hg : Grants args rf rf') : SelfVoted rf' := by
  intro hstate
  rcases hg.role with hrole | ⟨hrole, hterm, -⟩
  · exact absurd hrole hstate
  · have hvote := h (hrole ▸ hstate)
    rw [hg.newVote, hg.me]
    rcases hg.free (hterm.symm.trans hg.newTerm) with hfree | hfree
    · rw [hvote, noVote] at hfree
      omega
    · exact hfree.symm.trans hvote

theorem selfVoted_step {c c' : Cluster n Cmd} {a : Cluster.Act n Cmd} (hs : ElectionStep c a c')
    (h : ∀ i, SelfVoted (c.peers i).rf) (i : Fin n) : SelfVoted (c'.peers i).rf := by
  have hother : c'.peers i = c.peers i → SelfVoted (c'.peers i).rf := fun he => he ▸ h i
  cases hs with
  | quiet j others inst votes peer =>
      by_cases hij : i = j
      · subst hij
        exact (h i).quiet peer
      · exact hother (others i hij)
  | stand j others inst votes peer =>
      by_cases hij : i = j
      · subst hij
        rw [peer]
        exact fun _ => rfl
      · exact hother (others i hij)
  | refuse k r reply call fresh others inst votes refused peer =>
      by_cases hij : i = r.dst
      · subst hij
        exact (h r.dst).quiet peer
      · exact hother (others i hij)
  | grant k r reply call fresh others inst votes granted peer =>
      by_cases hij : i = r.dst
      · subst hij
        exact (h r.dst).grants peer
      · exact hother (others i hij)
  | take k r reply call fresh answer hinst others inst votes peer =>
      by_cases hij : i = r.src
      · subst hij
        rcases peer with hq | ⟨-, hc⟩
        · exact (h r.src).quiet hq
        · intro _
          rw [hc.vote, hc.me]
          apply h r.src
          rw [hc.candidate]
          exact State.noConfusion
      · exact hother (others i hij)
  | restart j act others votes peer =>
      by_cases hij : i = j
      · subst hij
        intro hstate
        rw [peer] at hstate
        exact absurd (restart_state (c.peers i)) hstate
      · exact hother (others i hij)

/-! ## Runs of a cluster -/

section

variable {acts : List (Cluster.Act n Cmd)} {c c' : Cluster n Cmd} {a : Cluster.Act n Cmd}

/-- In the run `acts` the peer `s` has run `startElection`, and it ended in the term
`t`. -/
def StoodIn (acts : List (Cluster.Act n Cmd)) (s : Fin n) (t : ℕ) : Prop :=
  ∃ before after q, acts = before ++ .ticker s :: after ∧
    exec Cluster.step (Cluster.init n Cmd) before = some q ∧
    (q.peers s).rf.ticker.1.currentTerm = t

/-- The peer `s` has granted its vote in the term `t` to the candidate. -/
def GrantedIn (c : Cluster n Cmd) (s candidate : Fin n) (t : ℕ) : Prop :=
  ∃ r ∈ c.votes, r.dst = s ∧ r.args.candidateId = candidate ∧ r.args.term = t ∧
    VoteRpc.granted r

/-- The vote that the peer `s` holds is one that it has cast in its present term. -/
def Honest (acts : List (Cluster.Act n Cmd)) (c : Cluster n Cmd) (s : Fin n) : Prop :=
  (c.peers s).rf.votedFor ≠ noVote →
    ((c.peers s).rf.votedFor = (s : ℕ) ∧ StoodIn acts s (c.peers s).rf.currentTerm) ∨
    ∃ candidate : Fin n, (c.peers s).rf.votedFor = (candidate : ℕ) ∧
      GrantedIn c s candidate (c.peers s).rf.currentTerm

/-- No reply of a larger term reaches a peer that still leads in the term of its
request. -/
def noneDeposed (c : Cluster n Cmd) : Cluster.Act n Cmd → Prop
  | .appendReply k => ∀ v ∈ Rpc.reply? c.appends k,
      ¬ (c.peers v.1.src).rf.DeposedBy v.1.args.term v.2.term
  | .snapshotReply k => ∀ v ∈ Rpc.reply? c.installs k,
      ¬ (c.peers v.1.src).rf.DeposedBy v.1.args.term v.2.term
  | _ => True

/-- The run has no restart. -/
def RestartFree (acts : List (Cluster.Act n Cmd)) : Prop := ∀ a ∈ acts, ∀ i, a ≠ .restart i

theorem StoodIn.snoc {s : Fin n} {t : ℕ} (h : StoodIn acts s t) (a : Cluster.Act n Cmd) :
    StoodIn (acts ++ [a]) s t := by
  obtain ⟨before, after, q, rfl, hq, ht⟩ := h
  exact ⟨before, after ++ [a], q, by simp, hq, ht⟩

theorem StoodIn.of_snoc {s : Fin n} {t : ℕ} (h : StoodIn (acts ++ [a]) s t)
    (ha : a ≠ .ticker s) : StoodIn acts s t := by
  obtain ⟨before, after, q, heq, hq, ht⟩ := h
  rcases List.eq_nil_or_concat after with rfl | ⟨after, b, rfl⟩
  · obtain ⟨-, hlast⟩ := List.append_inj' heq rfl
    exact absurd (List.singleton_inj.mp hlast) ha
  · rw [List.concat_eq_append, ← List.cons_append, ← List.append_assoc] at heq
    exact ⟨before, after, q, (List.append_inj' heq rfl).1, hq, ht⟩

theorem GrantedIn.step {s candidate : Fin n} {t : ℕ} (h : GrantedIn c s candidate t)
    (hs : c.step a = some c') : GrantedIn c' s candidate t := by
  refine exists_vote_mono (electionStep_of_step hs) ?_ h
  rintro r y - hdst hargs hkeep ⟨hs, hcand, ht, hg⟩
  exact ⟨hdst.trans hs, by rw [hargs, hcand], by rw [hargs, ht], hkeep hg⟩

theorem RestartFree.restartSafe (h : RestartFree acts) (c : Cluster n Cmd) :
    meets Cluster.step restartSafe c acts := by
  induction acts generalizing c with
  | nil => trivial
  | cons a acts ih =>
      refine ⟨?_, ?_⟩
      · cases a with
        | restart i => exact absurd rfl (h _ List.mem_cons_self i)
        | _ => trivial
      · cases hs : c.step a with
        | none => trivial
        | some c' => exact ih (fun b hb => h b (List.mem_cons_of_mem _ hb)) c'

theorem currentTerm_le_of_step (hs : c.step a = some c') {s : Fin n} (ha : a ≠ .restart s) :
    (c.peers s).rf.currentTerm ≤ (c'.peers s).rf.currentTerm := by
  rcases Cluster.step_delivers hs s with he | ⟨he, -⟩ | ⟨b, -, hb⟩
  · rw [he]
  · exact absurd he ha
  · exact (Peer.step_voteStep hb).term_le

/-- A peer has stood in no term above its own. -/
theorem StoodIn.le {s : Fin n} {t : ℕ} (h : StoodIn acts s t) (hfree : RestartFree acts)
    (hexec : exec Cluster.step (Cluster.init n Cmd) acts = some c) :
    t ≤ (c.peers s).rf.currentTerm := by
  obtain ⟨before, after, q, rfl, hq, rfl⟩ := h
  obtain ⟨q', hq', hexec⟩ := exec_append_eq_some.mp hexec
  obtain rfl := Option.some.inj (hq.symm.trans hq')
  obtain ⟨q', hs, hafter⟩ := exec_cons_eq_some.mp hexec
  have hterm : (q'.peers s).rf = (q.peers s).rf.ticker.1 := by
    obtain rfl := Option.some.inj hs
    exact congrArg Peer.rf (Cluster.setRf_self q s _)
  have hmono : meets Cluster.step (fun _ a => a ≠ .restart s) q' after :=
    meets_of_forall (p := fun a => a ≠ .restart s) q'
      fun a ha => hfree a (by simp [ha]) s
  refine exec_invariant
    (I := fun c => (q.peers s).rf.ticker.1.currentTerm ≤ (c.peers s).rf.currentTerm)
    (fun c a c' hle ha hs => hle.trans (currentTerm_le_of_step hs ha)) ?_ hmono hafter
  rw [hterm]

/-- A peer has granted no vote in a term above its own. -/
theorem GrantedIn.le {s candidate : Fin n} {t : ℕ} (h : GrantedIn c s candidate t)
    (hinv : ElectionInv c) : t ≤ (c.peers s).rf.currentTerm := by
  obtain ⟨r, hr, hdst, -, ht, hg⟩ := h
  exact recorded_le (hinv.current s r.src t ⟨r, hr, rfl, ht, Or.inr ⟨hdst, hg⟩⟩)

/-- A step other than standing that raises the term and keeps a vote is not honest. -/
theorem not_honest_of_raised {s : Fin n} (hfree : RestartFree acts)
    (hexec : exec Cluster.step (Cluster.init n Cmd) acts = some c) (ha : a ≠ .ticker s)
    (hvotes : c'.votes = c.votes)
    (hterm : (c.peers s).rf.currentTerm < (c'.peers s).rf.currentTerm)
    (hvote : (c'.peers s).rf.votedFor ≠ noVote) : ¬ Honest (acts ++ [a]) c' s := by
  intro h
  rcases h hvote with ⟨-, hstood⟩ | ⟨candidate, -, hgranted⟩
  · have hle := (hstood.of_snoc ha).le hfree hexec
    omega
  · have hinv := electionInv_exec (electionInv_init n Cmd) (hfree.restartSafe _) hexec
    rw [GrantedIn, hvotes] at hgranted
    have hle := GrantedIn.le hgranted hinv
    omega

/-- A step in which nobody is deposed keeps every vote honest. -/
theorem honest_step (hexec : exec Cluster.step (Cluster.init n Cmd) acts = some c)
    (hme : ∀ i, (c.peers i).rf.me = i) (hs : c.step a = some c') (ha : ∀ i, a ≠ .restart i)
    (hok : noneDeposed c a) (h : ∀ s, Honest acts c s) (s : Fin n) :
    Honest (acts ++ [a]) c' s := by
  intro hvote
  have hkept : (c'.peers s).rf.currentTerm = (c.peers s).rf.currentTerm →
      (c'.peers s).rf.votedFor = (c.peers s).rf.votedFor →
      ((c'.peers s).rf.votedFor = (s : ℕ) ∧
        StoodIn (acts ++ [a]) s (c'.peers s).rf.currentTerm) ∨
      ∃ candidate : Fin n, (c'.peers s).rf.votedFor = (candidate : ℕ) ∧
        GrantedIn c' s candidate (c'.peers s).rf.currentTerm := by
    intro hterm hsame
    rw [hterm, hsame]
    rcases h s (hsame ▸ hvote) with ⟨hself, hstood⟩ | ⟨candidate, hcand, hgranted⟩
    · exact Or.inl ⟨hself, hstood.snoc a⟩
    · exact Or.inr ⟨candidate, hcand, hgranted.step hs⟩
  rcases Cluster.step_delivers hs s with he | ⟨he, -⟩ | ⟨b, hdelivers, hb⟩
  · exact hkept (by rw [he]) (by rw [he])
  · exact absurd he (ha s)
  cases Peer.step_voteStep hb with
  | kept hterm hsame => exact hkept hterm hsame
  | forgot hterm hforgot => exact absurd hforgot hvote
  | stood hact hterm hself =>
      subst hact
      obtain rfl : a = .ticker s := hdelivers
      rw [hme] at hself
      exact Or.inl ⟨hself, acts, [], c, rfl, hexec, hterm.symm⟩
  | granted args hact hraised hterm hcand hreply =>
      subst hact
      obtain ⟨k, r, rfl, hk, rfl, rfl⟩ := hdelivers
      obtain ⟨r', hk', -, rfl⟩ := Cluster.step_requestVote hs
      obtain rfl := Option.some.inj (hk.symm.trans hk')
      refine Or.inr ⟨r.args.candidateId, hcand, ?_⟩
      have hlt := (List.getElem?_eq_some_iff.mp hk).1
      exact ⟨_, List.mem_set hlt _, rfl, rfl, hterm.symm, _, rfl, hreply⟩
  | deposed hact hterm hsame =>
      cases b with
      | appendReply peer args reply =>
          obtain ⟨k, r, rfl, hk, -, rfl, -, rfl⟩ := hdelivers
          exact absurd hact (hok _ hk)
      | snapshotReply peer args reply =>
          obtain ⟨k, r, rfl, hk, -, rfl, -, rfl⟩ := hdelivers
          exact absurd hact (hok _ hk)
      | _ => exact absurd hact not_false

/-- A step that leaves every vote honest has deposed nobody. -/
theorem noneDeposed_of_honest (hfree : RestartFree acts)
    (hexec : exec Cluster.step (Cluster.init n Cmd) acts = some c)
    (hself : ∀ i, SelfVoted (c.peers i).rf) (hs : c.step a = some c')
    (h : ∀ s, Honest (acts ++ [a]) c' s) : noneDeposed c a := by
  -- the reply leaves the leader in a larger term with the vote for itself
  have hnot : ∀ {s : Fin n} {t : ℕ}, a ≠ .ticker s → c'.votes = c.votes →
      (c.peers s).rf.state = .leader → (c.peers s).rf.currentTerm < t →
      (c'.peers s).rf = persist { (c.peers s).rf with currentTerm := t, state := .follower } →
      False := by
    intro s t ha hvotes hleader hlt he
    refine not_honest_of_raised hfree hexec ha hvotes (by rw [he]; exact hlt) ?_ (h s)
    have hvote := hself s (by rw [hleader]; exact State.noConfusion)
    rw [he]
    change (c.peers s).rf.votedFor ≠ noVote
    rw [hvote, noVote]
    omega
  cases a with
  | appendReply k =>
      obtain ⟨r, reply, rf, hk, htaken, hreply, -, hrf, rfl⟩ := Cluster.step_appendReply hs
      intro v hv hdep
      obtain rfl := Option.some.inj (hv.symm.trans (Rpc.reply?_eq_some.mpr ⟨hk, htaken, hreply⟩))
      rw [handleSendAppendEntries_of_deposedBy hdep] at hrf
      obtain rfl := Option.some.inj hrf
      exact hnot (by intro h; cases h) rfl hdep.1 hdep.2.2
        (congrArg Peer.rf (Cluster.setRf_self c r.src _))
  | snapshotReply k =>
      obtain ⟨r, reply, hk, htaken, hreply, -, rfl⟩ := Cluster.step_snapshotReply hs
      intro v hv hdep
      obtain rfl := Option.some.inj (hv.symm.trans (Rpc.reply?_eq_some.mpr ⟨hk, htaken, hreply⟩))
      exact hnot (by intro h; cases h) rfl hdep.1 hdep.2.2
        ((congrArg Peer.rf (Cluster.setRf_self c r.src _)).trans
          (handleSendInstallSnapshot_of_deposedBy hdep r.dst))
  | _ => trivial

theorem selfVoted_exec (hexec : exec Cluster.step (Cluster.init n Cmd) acts = some c) (i : Fin n) :
    SelfVoted (c.peers i).rf := by
  refine exec_preserves (I := fun c => ∀ i, SelfVoted (c.peers i).rf)
    (fun _ _ _ h hs => selfVoted_step (electionStep_of_step hs) h) ?_ hexec i
  exact fun _ hstate => absurd rfl hstate

/-- In a run without restarts, no leader is ever deposed by the reply to one of its own
requests if and only if at every moment of the run every vote that a peer holds is one
that it has cast in its present term. -/
theorem honest_throughout_iff (hexec : exec Cluster.step (Cluster.init n Cmd) acts = some c)
    (hfree : RestartFree acts) :
    meets Cluster.step noneDeposed (Cluster.init n Cmd) acts ↔
      ∀ before q, before <+: acts → exec Cluster.step (Cluster.init n Cmd) before = some q →
        ∀ s, Honest before q s := by
  refine meets_iff_forall_history (I := fun before q => ∀ s, Honest before q s) hexec ?_ ?_
  · exact fun _ hvote => absurd rfl hvote
  · intro before q a q' hpre hq hs hhonest
    have hfree' : RestartFree before := fun b hb =>
      hfree b (hpre.subset (List.mem_append_left _ hb))
    have ha : ∀ i, a ≠ .restart i := hfree a (hpre.subset (by simp))
    have hinv := electionInv_exec (electionInv_init n Cmd) (hfree'.restartSafe _) hq
    exact ⟨noneDeposed_of_honest hfree' hq (selfVoted_exec hq) hs,
      fun hok => honest_step hq hinv.ballots.me hs ha hok hhonest⟩

end

instance (c : Cluster n Cmd) (a : Cluster.Act n Cmd) : Decidable (noneDeposed c a) :=
  match a with
  | .appendReply k => inferInstanceAs (Decidable (∀ v ∈ Rpc.reply? c.appends k,
      ¬ (c.peers v.1.src).rf.DeposedBy v.1.args.term v.2.term))
  | .snapshotReply k => inferInstanceAs (Decidable (∀ v ∈ Rpc.reply? c.installs k,
      ¬ (c.peers v.1.src).rf.DeposedBy v.1.args.term v.2.term))
  | .ticker _ | .heartbeat _ | .start _ _ | .snapshot _ _ _ | .requestVote _ | .appendEntries _
  | .installSnapshot _ | .voteReply _ | .applier _ | .poll _ _ | .deliver _ _ | .restart _ =>
    .isTrue trivial

/-- Peer 0 is elected in term 1, and peer 2 answers its first heartbeat from term 2. -/
def staleLeader : List (Cluster.Act 3 ℕ) :=
  [.ticker 0, .requestVote 0, .voteReply 0, .ticker 2, .ticker 2, .appendEntries 1]

theorem restartFree_staleLeader : RestartFree staleLeader := by
  simp [RestartFree, staleLeader]

theorem honest_throughout_iff_staleLeader :
    ∃ c, exec Cluster.step (Cluster.init 3 ℕ) staleLeader = some c ∧
      ∀ before q, before <+: staleLeader →
        exec Cluster.step (Cluster.init 3 ℕ) before = some q → ∀ s, Honest before q s :=
  ⟨_, rfl, (honest_throughout_iff
    (show exec Cluster.step (Cluster.init 3 ℕ) staleLeader = some _ from rfl)
    restartFree_staleLeader).mp (by decide)⟩

/-- The reply of peer 2 takes peer 0 to term 2, where it holds a vote for itself that
it has not cast. -/
theorem deposedLeader_not_honest :
    ∃ c, exec Cluster.step (Cluster.init 3 ℕ) (staleLeader ++ [.appendReply 1]) = some c ∧
      ((c.peers 0).rf.currentTerm, (c.peers 0).rf.votedFor) = (2, 0) ∧
      ¬ Honest (staleLeader ++ [.appendReply 1]) c 0 := by
  refine ⟨_, rfl, by decide, ?_⟩
  exact not_honest_of_raised restartFree_staleLeader
    (show exec Cluster.step (Cluster.init 3 ℕ) staleLeader = some _ from rfl) nofun rfl
    (by decide) (by decide)

end Raft

end DistributedLabs
