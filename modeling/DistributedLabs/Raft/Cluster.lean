import DistributedLabs.Raft.Peer
import DistributedLabs.Logic.Run

/-!
# A cluster of Raft peers over `labrpc`

The network keeps every RPC that was ever issued, with the reply once its
handler has run and a mark once the caller has taken the reply. So a handler
runs at most once and a reply is taken at most once; requests and replies are
delayed and reordered by the choice of the next action, and lost when they are
never chosen. A caller takes a reply only if it is still the instance that sent
the request.

A handler runs under `rf.mu` and its reply leaves after it has returned, so it
is one step: a crash in the middle of it is a crash before it with the request
lost, or a crash after it with the reply never taken.
-/

namespace DistributedLabs

namespace Raft

/-- An RPC from `src` to `dst`, issued by the instance `inst` of `src`. -/
structure Rpc (n : ℕ) (Args Reply : Type*) where
  src : Fin n
  dst : Fin n
  inst : ℕ
  args : Args
  reply : Option Reply := none
  taken : Bool := false

namespace Rpc

variable {n : ℕ} {Args Reply : Type*}

/-- The request `k`, if its handler has not run yet. -/
def request? (rpcs : List (Rpc n Args Reply)) (k : ℕ) : Option (Rpc n Args Reply) :=
  (rpcs[k]?).bind fun r => if r.reply.isSome then none else some r

/-- The reply of the RPC `k`, if its caller has not taken it yet. -/
def reply? (rpcs : List (Rpc n Args Reply)) (k : ℕ) :
    Option (Rpc n Args Reply × Reply) :=
  (rpcs[k]?).bind fun r => if r.taken then none else r.reply.map fun reply => (r, reply)

theorem request?_eq_some {rpcs : List (Rpc n Args Reply)} {k : ℕ} {r : Rpc n Args Reply} :
    request? rpcs k = some r ↔ rpcs[k]? = some r ∧ r.reply = none := by
  unfold request?
  cases h : rpcs[k]? with
  | none => simp
  | some r' =>
      cases hr : r'.reply with
      | none =>
          simp only [Option.bind_some, hr, Option.isSome_none, Bool.false_eq_true, if_false,
            Option.some.injEq]
          constructor
          · rintro rfl
            exact ⟨rfl, hr⟩
          · exact fun h => h.1
      | some reply =>
          simp only [Option.bind_some, hr, Option.isSome_some, if_true, Option.some.injEq]
          constructor
          · intro h
            cases h
          · rintro ⟨rfl, h⟩
            rw [hr] at h
            cases h

theorem reply?_eq_some {rpcs : List (Rpc n Args Reply)} {k : ℕ} {r : Rpc n Args Reply}
    {reply : Reply} :
    reply? rpcs k = some (r, reply) ↔
      rpcs[k]? = some r ∧ r.taken = false ∧ r.reply = some reply := by
  unfold reply?
  cases h : rpcs[k]? with
  | none => simp
  | some r' =>
      cases ht : r'.taken with
      | true =>
          simp only [Option.bind_some, ht, if_true, Option.some.injEq]
          constructor
          · intro h
            cases h
          · rintro ⟨rfl, h, -⟩
            rw [ht] at h
            cases h
      | false =>
          simp only [Option.bind_some, ht, Bool.false_eq_true, if_false, Option.map_eq_some_iff,
            Prod.mk.injEq, Option.some.injEq]
          constructor
          · rintro ⟨x, hx, rfl, rfl⟩
            exact ⟨rfl, ht, hx⟩
          · rintro ⟨rfl, -, hx⟩
            exact ⟨reply, hx, rfl, rfl⟩

end Rpc

/-- The state of a cluster. -/
structure Cluster (n : ℕ) (Cmd : Type*) where
  peers : Fin n → Peer n Cmd
  votes : List (Rpc n (RequestVoteArgs n) RequestVoteReply) := []
  appends : List (Rpc n (AppendEntriesArgs n Cmd) AppendEntriesReply) := []
  installs : List (Rpc n (InstallSnapshotArgs n) InstallSnapshotReply) := []

namespace Cluster

variable {n : ℕ} {Cmd : Type*}

/-- A cluster in which every peer has been started on an empty persister. -/
def init (n : ℕ) (Cmd : Type*) : Cluster n Cmd :=
  { peers := fun i => Peer.make i {} }

/-- Replace one peer. -/
def setPeer (c : Cluster n Cmd) (i : Fin n) (p : Peer n Cmd) : Cluster n Cmd :=
  { c with peers := Function.update c.peers i p }

/-- Replace the locked state of one peer. -/
def setRf (c : Cluster n Cmd) (i : Fin n) (rf : Raft n Cmd) : Cluster n Cmd :=
  c.setPeer i ((c.peers i).setRf rf)

/-- Put the vote requests of `i` on the network. -/
def sendVotes (c : Cluster n Cmd) (i : Fin n) (out : List (Fin n × RequestVoteArgs n)) :
    Cluster n Cmd :=
  { c with votes := c.votes ++ out.map fun r =>
      { src := i, dst := r.1, inst := (c.peers i).inst, args := r.2 } }

/-- The `AppendEntries` calls among the requests of a broadcast. -/
def appendsOf (i : Fin n) (inst : ℕ) (out : List (Outgoing n Cmd)) :
    List (Rpc n (AppendEntriesArgs n Cmd) AppendEntriesReply) :=
  out.filterMap fun
    | .appendEntries peer args => some { src := i, dst := peer, inst := inst, args := args }
    | .installSnapshot _ _ => none

/-- The `InstallSnapshot` calls among the requests of a broadcast. -/
def installsOf (i : Fin n) (inst : ℕ) (out : List (Outgoing n Cmd)) :
    List (Rpc n (InstallSnapshotArgs n) InstallSnapshotReply) :=
  out.filterMap fun
    | .appendEntries _ _ => none
    | .installSnapshot peer args => some { src := i, dst := peer, inst := inst, args := args }

/-- Put the requests of a broadcast of `i` on the network. -/
def send (c : Cluster n Cmd) (i : Fin n) (out : List (Outgoing n Cmd)) : Cluster n Cmd :=
  { c with
    appends := c.appends ++ appendsOf i (c.peers i).inst out
    installs := c.installs ++ installsOf i (c.peers i).inst out }

@[simp] theorem setPeer_self (c : Cluster n Cmd) (i : Fin n) (p : Peer n Cmd) :
    (c.setPeer i p).peers i = p := by
  simp [setPeer]

theorem setPeer_of_ne (c : Cluster n Cmd) {i j : Fin n} (p : Peer n Cmd) (h : j ≠ i) :
    (c.setPeer i p).peers j = c.peers j := by
  simp [setPeer, h]

@[simp] theorem setRf_self (c : Cluster n Cmd) (i : Fin n) (rf : Raft n Cmd) :
    (c.setRf i rf).peers i = (c.peers i).setRf rf := by
  simp [setRf]

theorem setRf_of_ne (c : Cluster n Cmd) {i j : Fin n} (rf : Raft n Cmd) (h : j ≠ i) :
    (c.setRf i rf).peers j = c.peers j :=
  setPeer_of_ne c _ h

/-- An action of the cluster: an internal step of a peer, the delivery of the
request `k` to its handler, or the delivery of the reply `k` to its caller. -/
inductive Act (n : ℕ) (Cmd : Type*) where
  | ticker (i : Fin n)
  | heartbeat (i : Fin n)
  | start (i : Fin n) (command : Option Cmd)
  | snapshot (i : Fin n) (index : ℕ) (data : Bytes)
  | requestVote (k : ℕ)
  | appendEntries (k : ℕ)
  | installSnapshot (k : ℕ)
  | voteReply (k : ℕ)
  | appendReply (k : ℕ)
  | snapshotReply (k : ℕ)
  | applier (i : Fin n)
  | poll (i : Fin n) (k : ℕ)
  | deliver (i : Fin n) (k : ℕ)
  | restart (i : Fin n)

/-- The steps of a cluster. -/
def step (c : Cluster n Cmd) : Act n Cmd → Option (Cluster n Cmd)
  | .ticker i => some ((c.setRf i (c.peers i).rf.ticker.1).sendVotes i (c.peers i).rf.ticker.2)
  | .heartbeat i => (c.peers i).rf.heartbeatEvent.map (c.send i)
  | .start i command => some (c.setRf i ((c.peers i).rf.start command).1)
  | .snapshot i index data => ((c.peers i).rf.snapshotUpTo index data).map (c.setRf i)
  | .requestVote k =>
    (Rpc.request? c.votes k).map fun r =>
      let v := (c.peers r.dst).rf.requestVote r.args
      { c.setRf r.dst v.1 with votes := c.votes.set k { r with reply := some v.2 } }
  | .appendEntries k =>
    (Rpc.request? c.appends k).bind fun r =>
      ((c.peers r.dst).rf.appendEntries r.args).map fun v =>
        { c.setRf r.dst v.1 with appends := c.appends.set k { r with reply := some v.2 } }
  | .installSnapshot k =>
    (Rpc.request? c.installs k).map fun r =>
      let v := (c.peers r.dst).installSnapshot r.args
      { c.setPeer r.dst v.1 with installs := c.installs.set k { r with reply := some v.2 } }
  | .voteReply k =>
    (Rpc.reply? c.votes k).bind fun v =>
      if v.1.inst ≠ (c.peers v.1.src).inst then none
      else ((c.peers v.1.src).rf.handleVoteReply v.1.args v.2).map fun w =>
        { (c.setRf v.1.src w.1).send v.1.src w.2 with
          votes := c.votes.set k { v.1 with taken := true } }
  | .appendReply k =>
    (Rpc.reply? c.appends k).bind fun v =>
      if v.1.inst ≠ (c.peers v.1.src).inst then none
      else ((c.peers v.1.src).rf.handleSendAppendEntries v.1.dst v.1.args v.2).map fun rf =>
        { c.setRf v.1.src rf with appends := c.appends.set k { v.1 with taken := true } }
  | .snapshotReply k =>
    (Rpc.reply? c.installs k).bind fun v =>
      if v.1.inst ≠ (c.peers v.1.src).inst then none
      else some { c.setRf v.1.src
          ((c.peers v.1.src).rf.handleSendInstallSnapshot v.1.dst v.1.args v.2) with
        installs := c.installs.set k { v.1 with taken := true } }
  | .applier i => (c.peers i).applierStep.map (c.setPeer i)
  | .poll i k => ((c.peers i).pollStep k).map (c.setPeer i)
  | .deliver i k => ((c.peers i).sendStep k).map (c.setPeer i)
  | .restart i => some (c.setPeer i (c.peers i).restart)

/-! ## What a step that moves an RPC does -/

section

variable {c c' : Cluster n Cmd} {k : ℕ}

theorem step_requestVote (h : c.step (.requestVote k) = some c') :
    ∃ r, c.votes[k]? = some r ∧ r.reply = none ∧
      c' = { c.setRf r.dst ((c.peers r.dst).rf.requestVote r.args).1 with
        votes := c.votes.set k
          { r with reply := some ((c.peers r.dst).rf.requestVote r.args).2 } } := by
  obtain ⟨r, hr, rfl⟩ := Option.map_eq_some_iff.mp h
  obtain ⟨hk, hnone⟩ := Rpc.request?_eq_some.mp hr
  exact ⟨r, hk, hnone, rfl⟩

theorem step_appendEntries (h : c.step (.appendEntries k) = some c') :
    ∃ r rf reply, c.appends[k]? = some r ∧ r.reply = none ∧
      (c.peers r.dst).rf.appendEntries r.args = some (rf, reply) ∧
      c' = { c.setRf r.dst rf with
        appends := c.appends.set k { r with reply := some reply } } := by
  obtain ⟨r, hr, h⟩ := Option.bind_eq_some_iff.mp h
  obtain ⟨hk, hnone⟩ := Rpc.request?_eq_some.mp hr
  obtain ⟨v, hv, rfl⟩ := Option.map_eq_some_iff.mp h
  exact ⟨r, v.1, v.2, hk, hnone, hv, rfl⟩

theorem step_installSnapshot (h : c.step (.installSnapshot k) = some c') :
    ∃ r, c.installs[k]? = some r ∧ r.reply = none ∧
      c' = { c.setPeer r.dst ((c.peers r.dst).installSnapshot r.args).1 with
        installs := c.installs.set k
          { r with reply := some ((c.peers r.dst).installSnapshot r.args).2 } } := by
  obtain ⟨r, hr, rfl⟩ := Option.map_eq_some_iff.mp h
  obtain ⟨hk, hnone⟩ := Rpc.request?_eq_some.mp hr
  exact ⟨r, hk, hnone, rfl⟩

theorem step_voteReply (h : c.step (.voteReply k) = some c') :
    ∃ r reply rf out, c.votes[k]? = some r ∧ r.taken = false ∧ r.reply = some reply ∧
      r.inst = (c.peers r.src).inst ∧
      (c.peers r.src).rf.handleVoteReply r.args reply = some (rf, out) ∧
      c' = { (c.setRf r.src rf).send r.src out with
        votes := c.votes.set k { r with taken := true } } := by
  obtain ⟨⟨r, reply⟩, hr, h⟩ := Option.bind_eq_some_iff.mp h
  obtain ⟨hk, htaken, hreply⟩ := Rpc.reply?_eq_some.mp hr
  split at h
  · cases h
  · rename_i hinst
    obtain ⟨w, hw, rfl⟩ := Option.map_eq_some_iff.mp h
    exact ⟨r, reply, w.1, w.2, hk, htaken, hreply, not_not.mp hinst, hw, rfl⟩

theorem step_appendReply (h : c.step (.appendReply k) = some c') :
    ∃ r reply rf, c.appends[k]? = some r ∧ r.taken = false ∧ r.reply = some reply ∧
      r.inst = (c.peers r.src).inst ∧
      (c.peers r.src).rf.handleSendAppendEntries r.dst r.args reply = some rf ∧
      c' = { c.setRf r.src rf with appends := c.appends.set k { r with taken := true } } := by
  obtain ⟨⟨r, reply⟩, hr, h⟩ := Option.bind_eq_some_iff.mp h
  obtain ⟨hk, htaken, hreply⟩ := Rpc.reply?_eq_some.mp hr
  split at h
  · cases h
  · rename_i hinst
    obtain ⟨rf, hrf, rfl⟩ := Option.map_eq_some_iff.mp h
    exact ⟨r, reply, rf, hk, htaken, hreply, not_not.mp hinst, hrf, rfl⟩

theorem step_snapshotReply (h : c.step (.snapshotReply k) = some c') :
    ∃ r reply, c.installs[k]? = some r ∧ r.taken = false ∧ r.reply = some reply ∧
      r.inst = (c.peers r.src).inst ∧
      c' = { c.setRf r.src
          ((c.peers r.src).rf.handleSendInstallSnapshot r.dst r.args reply) with
        installs := c.installs.set k { r with taken := true } } := by
  obtain ⟨⟨r, reply⟩, hr, h⟩ := Option.bind_eq_some_iff.mp h
  obtain ⟨hk, htaken, hreply⟩ := Rpc.reply?_eq_some.mp hr
  split at h
  · cases h
  · rename_i hinst
    exact ⟨r, reply, hk, htaken, hreply, not_not.mp hinst, (Option.some.inj h).symm⟩

end

/-! ## The view of one peer -/

/-- What may reach the peer `i`: a request addressed to it, or the reply to one of
its own requests. Its internal steps need nothing. -/
def Arrives (c : Cluster n Cmd) (i : Fin n) : Peer.Act n Cmd → Prop
  | .requestVote args => ∃ r ∈ c.votes, r.dst = i ∧ r.args = args
  | .appendEntries args => ∃ r ∈ c.appends, r.dst = i ∧ r.args = args
  | .installSnapshot args => ∃ r ∈ c.installs, r.dst = i ∧ r.args = args
  | .voteReply args reply => ∃ r ∈ c.votes, r.src = i ∧ r.args = args ∧ r.reply = some reply
  | .appendReply peer args reply =>
    ∃ r ∈ c.appends, r.src = i ∧ r.dst = peer ∧ r.args = args ∧ r.reply = some reply
  | .snapshotReply peer args reply =>
    ∃ r ∈ c.installs, r.src = i ∧ r.dst = peer ∧ r.args = args ∧ r.reply = some reply
  | _ => True

/-- The action `a` of the cluster is the given step of the peer `i`: an internal step
of it, the delivery of a request to it, or the delivery of the reply to a call that
its present instance has made. -/
def Delivers (c : Cluster n Cmd) (a : Act n Cmd) (i : Fin n) : Peer.Act n Cmd → Prop
  | .ticker => a = .ticker i
  | .heartbeat => a = .heartbeat i
  | .start command => a = .start i command
  | .snapshot index data => a = .snapshot i index data
  | .requestVote args => ∃ k r, a = .requestVote k ∧ c.votes[k]? = some r ∧ r.dst = i ∧
      r.args = args
  | .appendEntries args => ∃ k r, a = .appendEntries k ∧ c.appends[k]? = some r ∧ r.dst = i ∧
      r.args = args
  | .installSnapshot args => ∃ k r, a = .installSnapshot k ∧ c.installs[k]? = some r ∧
      r.dst = i ∧ r.args = args
  | .voteReply args reply => ∃ k r, a = .voteReply k ∧ Rpc.reply? c.votes k = some (r, reply) ∧
      r.inst = (c.peers i).inst ∧ r.src = i ∧ r.args = args
  | .appendReply peer args reply => ∃ k r, a = .appendReply k ∧
      Rpc.reply? c.appends k = some (r, reply) ∧ r.inst = (c.peers i).inst ∧ r.src = i ∧
      r.dst = peer ∧ r.args = args
  | .snapshotReply peer args reply => ∃ k r, a = .snapshotReply k ∧
      Rpc.reply? c.installs k = some (r, reply) ∧ r.inst = (c.peers i).inst ∧ r.src = i ∧
      r.dst = peer ∧ r.args = args
  | .applier => a = .applier i
  | .poll k => a = .poll i k
  | .send k => a = .deliver i k

theorem Delivers.arrives {c : Cluster n Cmd} {a : Act n Cmd} {i : Fin n} {b : Peer.Act n Cmd}
    (h : c.Delivers a i b) : c.Arrives i b := by
  cases b with
  | requestVote args =>
      obtain ⟨k, r, -, hk, hdst, hargs⟩ := h
      exact ⟨r, List.mem_of_getElem? hk, hdst, hargs⟩
  | appendEntries args =>
      obtain ⟨k, r, -, hk, hdst, hargs⟩ := h
      exact ⟨r, List.mem_of_getElem? hk, hdst, hargs⟩
  | installSnapshot args =>
      obtain ⟨k, r, -, hk, hdst, hargs⟩ := h
      exact ⟨r, List.mem_of_getElem? hk, hdst, hargs⟩
  | voteReply args reply =>
      obtain ⟨k, r, -, hk, -, hsrc, hargs⟩ := h
      obtain ⟨hk, -, hreply⟩ := Rpc.reply?_eq_some.mp hk
      exact ⟨r, List.mem_of_getElem? hk, hsrc, hargs, hreply⟩
  | appendReply peer args reply =>
      obtain ⟨k, r, -, hk, -, hsrc, hdst, hargs⟩ := h
      obtain ⟨hk, -, hreply⟩ := Rpc.reply?_eq_some.mp hk
      exact ⟨r, List.mem_of_getElem? hk, hsrc, hdst, hargs, hreply⟩
  | snapshotReply peer args reply =>
      obtain ⟨k, r, -, hk, -, hsrc, hdst, hargs⟩ := h
      obtain ⟨hk, -, hreply⟩ := Rpc.reply?_eq_some.mp hk
      exact ⟨r, List.mem_of_getElem? hk, hsrc, hdst, hargs, hreply⟩
  | ticker | heartbeat | start _ | snapshot _ _ | applier | poll _ | send _ => trivial

/-- A step of the cluster leaves a peer alone, restarts it or is a step of it. -/
theorem step_delivers {c c' : Cluster n Cmd} {a : Act n Cmd} (h : c.step a = some c')
    (i : Fin n) :
    c'.peers i = c.peers i ∨ (a = .restart i ∧ c'.peers i = (c.peers i).restart) ∨
      ∃ b, c.Delivers a i b ∧ (c.peers i).step b = some (c'.peers i) := by
  -- the peer `j` makes the step `b`
  have hmove : ∀ {j : Fin n} {p : Peer n Cmd} (b : Peer.Act n Cmd),
      c'.peers = (c.setPeer j p).peers → c.Delivers a j b → (c.peers j).step b = some p →
      c'.peers i = c.peers i ∨ (a = .restart i ∧ c'.peers i = (c.peers i).restart) ∨
        ∃ b, c.Delivers a i b ∧ (c.peers i).step b = some (c'.peers i) := by
    intro j p b hpeers hdelivers hb
    rw [hpeers]
    by_cases hij : i = j
    · subst hij
      exact Or.inr (Or.inr ⟨b, hdelivers, by rw [setPeer_self, hb]⟩)
    · exact Or.inl (setPeer_of_ne c p hij)
  cases a with
  | ticker j =>
      obtain rfl := Option.some.inj h
      exact hmove .ticker rfl rfl rfl
  | heartbeat j =>
      obtain ⟨out, -, rfl⟩ := Option.map_eq_some_iff.mp h
      exact Or.inl rfl
  | start j command =>
      obtain rfl := Option.some.inj h
      exact hmove (.start command) rfl rfl rfl
  | snapshot j index data =>
      obtain ⟨rf, hrf, rfl⟩ := Option.map_eq_some_iff.mp h
      exact hmove (.snapshot index data) rfl rfl (Option.map_eq_some_iff.mpr ⟨rf, hrf, rfl⟩)
  | requestVote k =>
      obtain ⟨r, hk, -, rfl⟩ := step_requestVote h
      exact hmove (.requestVote r.args) rfl ⟨k, r, rfl, hk, rfl, rfl⟩ rfl
  | appendEntries k =>
      obtain ⟨r, rf, reply, hk, -, hrf, rfl⟩ := step_appendEntries h
      exact hmove (.appendEntries r.args) rfl ⟨k, r, rfl, hk, rfl, rfl⟩
        (Option.map_eq_some_iff.mpr ⟨_, hrf, rfl⟩)
  | installSnapshot k =>
      obtain ⟨r, hk, -, rfl⟩ := step_installSnapshot h
      exact hmove (.installSnapshot r.args) rfl ⟨k, r, rfl, hk, rfl, rfl⟩ rfl
  | voteReply k =>
      obtain ⟨r, reply, rf, out, hk, htaken, hreply, hinst, hrf, rfl⟩ := step_voteReply h
      exact hmove (.voteReply r.args reply) rfl
        ⟨k, r, rfl, Rpc.reply?_eq_some.mpr ⟨hk, htaken, hreply⟩, hinst, rfl, rfl⟩
        (Option.map_eq_some_iff.mpr ⟨_, hrf, rfl⟩)
  | appendReply k =>
      obtain ⟨r, reply, rf, hk, htaken, hreply, hinst, hrf, rfl⟩ := step_appendReply h
      exact hmove (.appendReply r.dst r.args reply) rfl
        ⟨k, r, rfl, Rpc.reply?_eq_some.mpr ⟨hk, htaken, hreply⟩, hinst, rfl, rfl, rfl⟩
        (Option.map_eq_some_iff.mpr ⟨rf, hrf, rfl⟩)
  | snapshotReply k =>
      obtain ⟨r, reply, hk, htaken, hreply, hinst, rfl⟩ := step_snapshotReply h
      exact hmove (.snapshotReply r.dst r.args reply) rfl
        ⟨k, r, rfl, Rpc.reply?_eq_some.mpr ⟨hk, htaken, hreply⟩, hinst, rfl, rfl, rfl⟩ rfl
  | applier j =>
      obtain ⟨p, hp, rfl⟩ := Option.map_eq_some_iff.mp h
      exact hmove .applier rfl rfl hp
  | poll j k =>
      obtain ⟨p, hp, rfl⟩ := Option.map_eq_some_iff.mp h
      exact hmove (.poll k) rfl rfl hp
  | deliver j k =>
      obtain ⟨p, hp, rfl⟩ := Option.map_eq_some_iff.mp h
      exact hmove (.send k) rfl rfl hp
  | restart j =>
      obtain rfl := Option.some.inj h
      by_cases hij : i = j
      · subst hij
        exact Or.inr (Or.inl ⟨rfl, setPeer_self c i _⟩)
      · exact Or.inl (setPeer_of_ne c _ hij)

/-- The same, where the action does not matter. -/
theorem step_peer {c c' : Cluster n Cmd} {a : Act n Cmd} (h : c.step a = some c') (i : Fin n) :
    c'.peers i = c.peers i ∨ (a = .restart i ∧ c'.peers i = (c.peers i).restart) ∨
      ∃ b, c.Arrives i b ∧ (c.peers i).step b = some (c'.peers i) := by
  rcases step_delivers h i with he | he | ⟨b, hdelivers, hb⟩
  · exact Or.inl he
  · exact Or.inr (Or.inl he)
  · exact Or.inr (Or.inr ⟨b, hdelivers.arrives, hb⟩)

end Cluster

end Raft

end DistributedLabs
