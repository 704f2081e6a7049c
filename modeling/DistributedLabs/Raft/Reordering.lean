import DistributedLabs.Raft.FullLog
import DistributedLabs.Raft.Indices

/-!
# Requests of one leader in any order

A leader only adds to its log, so every request of its term is a piece of the log it
ends up with, and a request that comes late is a piece that is older. The copy loop
of `AppendEntries` cuts the log of the follower only at an entry of another term.
Whatever the follower already shares with the leader therefore stays, and a request
that succeeds adds the piece that it carries.
-/

namespace DistributedLabs

namespace Raft

open Consensus

variable {n : ℕ} {Cmd : Type*}

/-- The log of the peer agrees with the log `L` at every index from its snapshot point
up to `m`. Of the snapshot point it knows the term only. -/
def AgreesUpTo (rf : Raft n Cmd) (L : List (LogEntry Cmd)) (m : ℕ) : Prop :=
  ∀ i, rf.lastIncludedIndex ≤ i → i ≤ m → i ≤ L.length ∧ ∃ e, rf.entryAt? i = some e ∧
    e.term = tipTerm LogEntry.term (L.take i) ∧ (rf.lastIncludedIndex < i → L[i - 1]? = some e)

/-- Log Matching with the log `L`: where the terms are the same, the logs agree up to
there. -/
def MatchesLog (rf : Raft n Cmd) (L : List (LogEntry Cmd)) : Prop :=
  ∀ i e, rf.lastIncludedIndex ≤ i → i ≤ L.length → rf.entryAt? i = some e →
    e.term = tipTerm LogEntry.term (L.take i) → rf.AgreesUpTo L i

/-- The request is a piece of the log `L`. -/
structure AppendEntriesArgs.PieceOf (args : AppendEntriesArgs n Cmd) (L : List (LogEntry Cmd)) :
    Prop where
  prevLogIndex : args.prevLogIndex ≤ L.length
  prevLogTerm : args.prevLogTerm = tipTerm LogEntry.term (L.take args.prevLogIndex)
  entries : args.entries <+: L.drop args.prevLogIndex

/-! ## Agreement of the entries above the snapshot point -/

section

variable {rf rf' : Raft n Cmd} {L : List (LogEntry Cmd)} {m : ℕ}

theorem AgreesUpTo.of_eq (h : rf.AgreesUpTo L m) (hlogs : rf'.logs = rf.logs)
    (hinc : rf'.lastIncludedIndex = rf.lastIncludedIndex) : rf'.AgreesUpTo L m := by
  unfold AgreesUpTo entryAt? logIndex at h ⊢
  rw [hlogs, hinc]
  exact h

theorem MatchesLog.of_eq (h : rf.MatchesLog L) (hlogs : rf'.logs = rf.logs)
    (hinc : rf'.lastIncludedIndex = rf.lastIncludedIndex) : rf'.MatchesLog L := by
  intro i e hi hL he hterm
  rw [hinc] at hi
  have hentry : rf.entryAt? i = some e := by
    rw [← he, entryAt?_of_le rf hi, entryAt?_of_le rf' (hinc ▸ hi), hlogs, hinc]
  exact (h i e hi hL hentry hterm).of_eq hlogs hinc

/-- The slot of an index above the snapshot point. -/
theorem entryAt?_add_one (rf : Raft n Cmd) (k : ℕ) :
    rf.entryAt? (rf.lastIncludedIndex + k + 1) = rf.logs.rest[k]? := by
  rw [entryAt?_of_le rf (by omega), Nat.add_assoc, Nat.add_sub_cancel_left, Logs.get?_succ]

theorem entryAt?_zero (rf : Raft n Cmd) :
    rf.entryAt? rf.lastIncludedIndex = some rf.logs.zero := by
  rw [entryAt?_of_le rf le_rfl, Nat.sub_self, Logs.get?_zero]

/-- Agreement is a matter of the term of slot 0 and of the entries above it. -/
theorem agreesUpTo_add_iff {k : ℕ} : rf.AgreesUpTo L (rf.lastIncludedIndex + k) ↔
    rf.logs.zero.term = tipTerm LogEntry.term (L.take rf.lastIncludedIndex) ∧
      rf.lastIncludedIndex + k ≤ L.length ∧
      (L.drop rf.lastIncludedIndex).take k <+: rf.logs.rest := by
  constructor
  · intro h
    obtain ⟨-, e, he, hterm, -⟩ := h rf.lastIncludedIndex le_rfl (Nat.le_add_right _ _)
    rw [entryAt?_zero] at he
    obtain rfl := Option.some.inj he
    refine ⟨hterm, (h _ (Nat.le_add_right _ _) le_rfl).1, ?_⟩
    rw [List.prefix_iff_getElem?]
    intro j hj
    rw [List.length_take] at hj
    have hjk : j < k := lt_of_lt_of_le hj (min_le_left _ _)
    obtain ⟨-, e, he, -, hL⟩ := h (rf.lastIncludedIndex + j + 1) (by omega) (by omega)
    have hentry := hL (by omega)
    rw [entryAt?_add_one] at he
    rw [Nat.add_sub_cancel] at hentry
    rw [he, List.getElem_take, ← List.getElem?_eq_getElem, List.getElem?_drop, hentry]
  · rintro ⟨hterm, hlen, hpre⟩ i hi him
    refine ⟨him.trans hlen, ?_⟩
    rcases hi.lt_or_eq with hlt | rfl
    · obtain ⟨j, rfl⟩ := Nat.exists_eq_add_of_lt hlt
      obtain ⟨e, he⟩ : ∃ e, L[rf.lastIncludedIndex + j]? = some e :=
        ⟨_, List.getElem?_eq_getElem (by omega)⟩
      have hrest : rf.logs.rest[j]? = some e := by
        refine getElem?_of_isPrefix hpre ?_
        rw [List.getElem?_take_of_lt (by omega), List.getElem?_drop, he]
      refine ⟨e, ?_, ?_, fun _ => ?_⟩
      · rw [entryAt?_add_one, hrest]
      · rw [tipTerm_take_succ _ he]
      · rw [Nat.add_sub_cancel, he]
    · exact ⟨_, rf.entryAt?_zero, hterm, fun h => absurd h (lt_irrefl _)⟩

/-- Log Matching of the entries above the snapshot point. -/
theorem MatchesLog.agree (h : rf.MatchesLog L) (hinc : rf.lastIncludedIndex ≤ L.length) :
    Agree rf.logs.rest (L.drop rf.lastIncludedIndex) := by
  intro j e e' he he' hterm
  rw [List.getElem?_drop] at he'
  have hlt := (List.getElem?_eq_some_iff.mp he').1
  have hagree := h (rf.lastIncludedIndex + j + 1) e (by omega) (by omega)
    (by rw [entryAt?_add_one, he]) (by rw [tipTerm_take_succ _ he', hterm])
  rw [Nat.add_assoc] at hagree
  obtain ⟨-, -, hpre⟩ := agreesUpTo_add_iff.mp hagree
  have hlen : ((L.drop rf.lastIncludedIndex).take (j + 1)).length = j + 1 := by
    rw [List.length_take, List.length_drop]
    omega
  rw [List.prefix_iff_eq_take.mp hpre, hlen]

end

/-! ## The copy loop above the snapshot point -/

theorem copyEntry_setZero (logs : Logs Cmd) (zero : LogEntry Cmd) (i : ℕ)
    (entry : LogEntry Cmd) :
    copyEntry { logs with zero := zero } (i + 1) entry =
      { zero := zero, rest := (copyEntry logs (i + 1) entry).rest } := by
  unfold copyEntry
  rw [Logs.get?_succ, Logs.get?_succ, Logs.length_eq, Logs.length_eq]
  dsimp only
  cases logs.rest[i]? with
  | some old =>
      dsimp only
      split
      · rfl
      · rfl
  | none =>
      dsimp only
      split
      · rfl
      · rfl

/-- Slot 0 has no part in the copy loop. -/
theorem copyEntries_setZero (logs : Logs Cmd) (zero : LogEntry Cmd) (i : ℕ)
    (entries : List (LogEntry Cmd)) :
    copyEntries { logs with zero := zero } (i + 1) entries =
      { zero := zero, rest := (copyEntries logs (i + 1) entries).rest } := by
  induction entries generalizing logs i with
  | nil => rfl
  | cons entry entries ih =>
      rw [copyEntries, copyEntries, copyEntry_setZero]
      exact ih (copyEntry logs (i + 1) entry) (i + 1)

/-- The copy loop takes over the log `T` up to the last entry of the request. -/
theorem copyEntries_rest {logs : Logs Cmd} {T entries : List (LogEntry Cmd)} {p : ℕ}
    (hp : p ≤ T.length) (hstart : T.take p <+: logs.rest) (hagree : Agree logs.rest T)
    (hentries : entries <+: T.drop p) :
    (copyEntries logs (p + 1) entries).zero = logs.zero ∧
      (copyEntries logs (p + 1) entries).rest =
        adopt logs.rest (T.take (p + entries.length)) := by
  have hsame := copyEntries_setZero logs logs.zero p entries
  refine ⟨(congrArg Logs.zero hsame :), ?_⟩
  -- with an empty slot 0 the slice is all of the log
  have hempty := copyEntries_setZero logs { term := 0, cmd := none } p entries
  have hholds : Logs.Holds { logs with zero := { term := 0, cmd := none } } 0 logs.rest :=
    ⟨Nat.zero_le _, rfl, rfl⟩
  have hlen : (T.take p).length = p := List.length_take_of_le hp
  have hprev : p ≤ logs.rest.length := by
    have := hstart.length_le
    rwa [hlen] at this
  have htake : T.take p = logs.rest.take p := by
    have := List.prefix_iff_eq_take.mp hstart
    rwa [hlen] at this
  have hpiece : T.take p ++ entries <+: T := by
    obtain ⟨tail, htail⟩ := hentries
    exact ⟨tail, by rw [List.append_assoc, htail, List.take_append_drop]⟩
  have hcopied := hholds.copyEntries (Nat.zero_le p) hprev htake hagree hp hpiece
  rw [Nat.sub_zero, hempty] at hcopied
  exact hcopied.rest

/-! ## The handler -/

section

variable {rf rf' : Raft n Cmd} {L : List (LogEntry Cmd)} {m : ℕ} {args : AppendEntriesArgs n Cmd}
  {reply : AppendEntriesReply}

/-- A peer whose entries above the snapshot point have taken over a part of `L` still
shares what it shared with `L`, and shares that part. -/
theorem AgreesUpTo.adopt (h : rf.AgreesUpTo L m) {q : ℕ}
    (hq : rf.AgreesUpTo L rf.lastIncludedIndex) (hlen : rf.lastIncludedIndex + q ≤ L.length)
    (hinc : rf'.lastIncludedIndex = rf.lastIncludedIndex) (hzero : rf'.logs.zero = rf.logs.zero)
    (hrest : rf'.logs.rest =
      Consensus.adopt rf.logs.rest ((L.drop rf.lastIncludedIndex).take q)) :
    rf'.AgreesUpTo L m ∧ rf'.AgreesUpTo L (rf.lastIncludedIndex + q) := by
  have hterm := (agreesUpTo_add_iff (k := 0)).mp hq |>.1
  rw [← hinc]
  refine ⟨?_, agreesUpTo_add_iff.mpr ⟨by rw [hzero, hinc, hterm], by rwa [hinc], ?_⟩⟩
  · rcases Nat.lt_or_ge m rf.lastIncludedIndex with hlt | hge
    · intro i hi him
      omega
    · obtain ⟨k, rfl⟩ := Nat.exists_eq_add_of_le hge
      obtain ⟨-, hlen', hpre⟩ := agreesUpTo_add_iff.mp h
      rw [← hinc]
      refine agreesUpTo_add_iff.mpr ⟨by rw [hzero, hinc, hterm], by rwa [hinc], ?_⟩
      rw [hrest, hinc]
      have htake := List.take_prefix k (L.drop rf.lastIncludedIndex)
      exact adopt_keeps hpre htake q
  · rw [hrest, hinc]
    exact starts_adopt _ _

/-- `AppendEntries` once the term has been adopted. -/
theorem replicate_agreesUpTo (hmatch : rf.MatchesLog L) (hm : rf.AgreesUpTo L m)
    (hargs : args.PieceOf L) (h : rf.replicate args = some (rf', reply)) :
    rf'.AgreesUpTo L m ∧ (reply.success = true →
      rf'.AgreesUpTo L (max m (args.prevLogIndex + args.entries.length))) := by
  rcases replicate_cases h with ⟨rfl, -, hfail⟩ | ⟨old, hinc, -, hold, hterm, hrf', -⟩
  · refine ⟨hm, fun hsuccess => ?_⟩
    rw [hfail] at hsuccess
    cases hsuccess
  -- the entry at `PrevLogIndex` is the one of the leader
  have hprev := hmatch args.prevLogIndex old hinc hargs.prevLogIndex hold
    (hterm.trans hargs.prevLogTerm)
  obtain ⟨p, hp⟩ := Nat.exists_eq_add_of_le hinc
  have hle := hargs.prevLogIndex
  have hentries := hargs.entries
  rw [hp] at hprev hle hentries
  obtain ⟨-, -, hstart⟩ := agreesUpTo_add_iff.mp hprev
  rw [← List.drop_drop] at hentries
  have hlen := hentries.length_le
  rw [List.length_drop, List.length_drop] at hlen
  have hslot : rf.logIndex (args.prevLogIndex + 1) = p + 1 := by
    rw [logIndex]
    omega
  obtain ⟨hzero, hrest⟩ := copyEntries_rest (p := p) (by rw [List.length_drop]; omega) hstart
    (hmatch.agree (by omega)) hentries
  rw [← hslot] at hzero hrest
  obtain ⟨hlogs, hinc'⟩ : rf'.logs =
      copyEntries rf.logs (rf.logIndex (args.prevLogIndex + 1)) args.entries ∧
      rf'.lastIncludedIndex = rf.lastIncludedIndex := by
    rw [hrf']
    unfold followCommit
    split
    · exact ⟨rfl, rfl⟩
    · exact ⟨rfl, rfl⟩
  rw [← hlogs] at hzero hrest
  obtain ⟨hkept, hnew⟩ := hm.adopt (q := p + args.entries.length)
    (fun i hi him => hprev i hi (by omega)) (by omega) hinc' hzero hrest
  refine ⟨hkept, fun _ => ?_⟩
  rw [hp, Nat.add_assoc]
  rcases max_choice m (rf.lastIncludedIndex + (p + args.entries.length)) with hmax | hmax
  · rwa [hmax]
  · rwa [hmax]

/-- `AppendEntries` from the term of the follower on. -/
theorem appendEntries_agrees (hterm : rf.currentTerm ≤ args.term) (hmatch : rf.MatchesLog L)
    (hm : rf.AgreesUpTo L m) (hargs : args.PieceOf L)
    (h : rf.appendEntries args = some (rf', reply)) :
    rf'.AgreesUpTo L m ∧ (reply.success = true →
      rf'.AgreesUpTo L (max m (args.prevLogIndex + args.entries.length))) := by
  rcases appendEntries_cases h with ⟨hlt, -, -⟩ | ⟨-, rf₁, hrep, rfl⟩
  · omega
  · have hlogs : (rf.toFollower.adoptTerm args.term).logs = rf.logs := by
      obtain ⟨_, _, he⟩ := adoptTerm_frame rf.toFollower args.term
      rw [he]
      rfl
    have hinc : (rf.toFollower.adoptTerm args.term).lastIncludedIndex = rf.lastIncludedIndex :=
      adoptTerm_lastIncludedIndex _ _
    obtain ⟨hkept, hnew⟩ :=
      replicate_agreesUpTo (hmatch.of_eq hlogs hinc) (hm.of_eq hlogs hinc) hargs hrep
    exact ⟨hkept.of_eq rfl rfl, fun hsuccess => (hnew hsuccess).of_eq rfl rfl⟩

/-- A request that is a piece of the leader's log, however old, leaves the follower in
agreement with that log as far as it was, and a successful one up to its last entry. -/
theorem appendEntries_agreesUpTo (hterm : rf.currentTerm ≤ args.term) (hmatch : rf.MatchesLog L)
    (hm : rf.AgreesUpTo L m) (hargs : args.PieceOf L) :
    (rf.lastIncludedIndex ≤ rf.commitIndex → ∃ r, rf.appendEntries args = some r) ∧
      ∀ rf' reply, rf.appendEntries args = some (rf', reply) →
        rf'.AgreesUpTo L m ∧ (reply.success = true →
          rf'.AgreesUpTo L (max m (args.prevLogIndex + args.entries.length))) := by
  refine ⟨fun hinc => ?_, fun rf' reply h => appendEntries_agrees hterm hmatch hm hargs h⟩
  exact Option.isSome_iff_exists.mp (appendEntries_isSome hinc args)

end

/-- A log of the leader of term 1. -/
def leaderLog : List (LogEntry ℕ) := [{ term := 1, cmd := some 7 }, { term := 1, cmd := some 8 }]

/-- A follower that already has all of it. -/
def caughtUp : Raft 3 ℕ :=
  { make 1 {} with
    currentTerm := 1
    logs := { zero := { term := 0, cmd := none }, rest := leaderLog } }

/-- The request of the leader from the time when it had the first entry only. -/
def earlierRequest : AppendEntriesArgs 3 ℕ :=
  { term := 1, leaderId := 0, prevLogIndex := 0, prevLogTerm := 0,
    entries := leaderLog.take 1, leaderCommit := 0 }

theorem caughtUp_agreesUpTo : caughtUp.AgreesUpTo leaderLog 2 :=
  (agreesUpTo_add_iff (k := 2)).mpr ⟨rfl, by decide, by decide⟩

/-- The earlier request succeeds, and the second entry stays. -/
theorem appendEntries_agreesUpTo_earlier :
    ∃ rf' reply, caughtUp.appendEntries earlierRequest = some (rf', reply) ∧
      reply.success = true ∧ rf'.AgreesUpTo leaderLog 2 := by
  have hmatch : caughtUp.MatchesLog leaderLog := fun i _ _ hi _ _ j hj hji =>
    caughtUp_agreesUpTo j hj (hji.trans hi)
  have hargs : earlierRequest.PieceOf leaderLog := ⟨by decide, rfl, by decide⟩
  have h := (appendEntries_agreesUpTo (by decide) hmatch caughtUp_agreesUpTo hargs).2
  exact ⟨_, _, rfl, rfl, (h _ _ rfl).1⟩

end Raft

end DistributedLabs
