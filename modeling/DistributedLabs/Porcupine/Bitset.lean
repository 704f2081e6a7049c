import Mathlib.Data.Finset.Basic
import Mathlib.Data.BitVec

/-!
# Bit sets

`bitset.go` keeps a set of small numbers in words of 64 bits. Indices out of range panic,
which is `none` here. Two bit sets of the same size are `equals` if and only if they hold
the same numbers; the hash, which is all that the cache of the checker looks at first,
mixes the words with the number of elements.
-/

namespace DistributedLabs

namespace Porcupine

structure Bitset where
  data : List (BitVec 64)
deriving DecidableEq, Repr

/-- The number of words for so many bits. -/
def chunks (bits : ℕ) : ℕ :=
  let extra := if bits % 64 ≠ 0 then 1 else 0
  bits / 64 + extra

def newBitset (bits : ℕ) : Bitset := ⟨List.replicate (chunks bits) 0#64⟩

def bitsetIndex (pos : ℕ) : ℕ × ℕ := (pos / 64, pos % 64)

/-- The number of ones in a word. -/
def onesCount64 (v : BitVec 64) : ℕ := (List.range 64).countP v.getLsbD

namespace Bitset

/-- `b[major] |= (1 << minor)` -/
def set (b : Bitset) (pos : ℕ) : Option Bitset :=
  let (major, minor) := bitsetIndex pos
  (b.data[major]?).map fun v => ⟨b.data.set major (v ||| 1#64 <<< minor)⟩

/-- `b[major] &^= (1 << minor)` -/
def clear (b : Bitset) (pos : ℕ) : Option Bitset :=
  let (major, minor) := bitsetIndex pos
  (b.data[major]?).map fun v => ⟨b.data.set major (v &&& ~~~(1#64 <<< minor))⟩

def popcnt (b : Bitset) : ℕ := (b.data.map onesCount64).sum

def hash (b : Bitset) : BitVec 64 := b.data.foldl (· ^^^ ·) (BitVec.ofNat 64 b.popcnt)

def equals (b b2 : Bitset) : Bool :=
  if b.data.length ≠ b2.data.length then false
  else (List.range b.data.length).all fun i => b.data[i]? == b2.data[i]?

theorem equals_iff {b b2 : Bitset} : b.equals b2 = true ↔ b = b2 := by
  obtain ⟨data⟩ := b
  obtain ⟨data2⟩ := b2
  unfold equals
  constructor
  · intro h
    split at h
    · cases h
    · rename_i hlen
      rw [not_not] at hlen
      refine congrArg Bitset.mk (List.ext_getElem? fun i => ?_)
      rcases Nat.lt_or_ge i data.length with hi | hi
      · simpa using List.all_eq_true.mp h i (List.mem_range.mpr hi)
      · rw [List.getElem?_eq_none hi, List.getElem?_eq_none (hlen ▸ hi)]
  · intro h
    obtain rfl : data = data2 := Bitset.mk.inj h
    simp

/-- Whether a bit is set. -/
def test (b : Bitset) (pos : ℕ) : Bool := ((b.data[pos / 64]?).getD 0#64).getLsbD (pos % 64)

/-- A bit set of the size of `newBitset n` that holds the numbers in `L`. -/
structure Holds (n : ℕ) (L : Finset ℕ) (b : Bitset) : Prop where
  length : b.data.length = chunks n
  test_iff : ∀ pos, b.test pos = true ↔ pos ∈ L

theorem div_lt_chunks {n pos : ℕ} (h : pos < n) : pos / 64 < chunks n := by
  unfold chunks
  dsimp only
  split <;> omega

theorem holds_newBitset (n : ℕ) : Holds n ∅ (newBitset n) where
  length := List.length_replicate
  test_iff := by
    intro pos
    simp only [test, newBitset, List.getElem?_replicate]
    split <;> simp

theorem test_set {b : Bitset} {major : ℕ} (hmajor : major < b.data.length) (v : BitVec 64)
    (pos : ℕ) :
    test ⟨b.data.set major v⟩ pos =
      if pos / 64 = major then v.getLsbD (pos % 64) else b.test pos := by
  unfold test
  rw [List.getElem?_set]
  by_cases h : pos / 64 = major
  · simp [h, hmajor]
  · simp [h, Ne.symm h]

theorem eq_iff_div_mod (pos pos' : ℕ) :
    pos = pos' ↔ pos / 64 = pos' / 64 ∧ pos % 64 = pos' % 64 := by omega

variable {n pos : ℕ} {L : Finset ℕ} {b : Bitset}

/-- One word of a bit set changes at one position. -/
theorem Holds.word (h : b.Holds n L) (hpos : pos < n) :
    ∃ v, b.data[pos / 64]? = some v ∧ pos / 64 < b.data.length ∧
      ∀ i < 64, v.getLsbD i = true ↔ 64 * (pos / 64) + i ∈ L := by
  have hlt : pos / 64 < b.data.length := h.length ▸ div_lt_chunks hpos
  refine ⟨_, List.getElem?_eq_getElem hlt, hlt, fun i hi => ?_⟩
  have htest := h.test_iff (64 * (pos / 64) + i)
  have hdiv : (64 * (pos / 64) + i) / 64 = pos / 64 := by omega
  have hmod : (64 * (pos / 64) + i) % 64 = i := by omega
  rw [test, hdiv, hmod, List.getElem?_eq_getElem hlt] at htest
  exact htest

theorem Holds.set (h : b.Holds n L) (hpos : pos < n) :
    ∃ b', b.set pos = some b' ∧ b'.Holds n (insert pos L) := by
  obtain ⟨v, hv, hlt, hbits⟩ := h.word hpos
  refine ⟨⟨b.data.set (pos / 64) (v ||| 1#64 <<< (pos % 64))⟩, ?_, ?_, fun pos' => ?_⟩
  · simp [Bitset.set, bitsetIndex, hv]
  · exact List.length_set.trans h.length
  · rw [test_set hlt, Finset.mem_insert, eq_iff_div_mod pos' pos]
    split
    · rename_i hdiv
      have hmem := hbits (pos' % 64) (Nat.mod_lt _ (by decide))
      have hpos' : 64 * (pos / 64) + pos' % 64 = pos' := by omega
      rw [hpos'] at hmem
      simp only [BitVec.getLsbD_or, Bool.or_eq_true, hmem, ← BitVec.twoPow_eq,
        BitVec.getLsbD_twoPow]
      grind
    · rename_i hdiv
      rw [h.test_iff]
      simp [hdiv]

theorem Holds.clear (h : b.Holds n L) (hpos : pos < n) :
    ∃ b', b.clear pos = some b' ∧ b'.Holds n (L.erase pos) := by
  obtain ⟨v, hv, hlt, hbits⟩ := h.word hpos
  refine ⟨⟨b.data.set (pos / 64) (v &&& ~~~(1#64 <<< (pos % 64)))⟩, ?_, ?_, fun pos' => ?_⟩
  · simp [Bitset.clear, bitsetIndex, hv]
  · exact List.length_set.trans h.length
  · rw [test_set hlt, Finset.mem_erase, ne_eq,
      eq_iff_div_mod pos' pos]
    split
    · rename_i hdiv
      have hmem := hbits (pos' % 64) (Nat.mod_lt _ (by decide))
      have hpos' : 64 * (pos / 64) + pos' % 64 = pos' := by omega
      rw [hpos'] at hmem
      simp only [BitVec.getLsbD_and, BitVec.getLsbD_not, Bool.and_eq_true, hmem,
        ← BitVec.twoPow_eq, BitVec.getLsbD_twoPow]
      grind
    · rename_i hdiv
      rw [h.test_iff]
      simp [hdiv]

/-- Bit sets of one size are equal if and only if they hold the same numbers. -/
theorem Holds.eq_iff {b' : Bitset} {L' : Finset ℕ} (h : b.Holds n L) (h' : b'.Holds n L') :
    b = b' ↔ L = L' := by
  constructor
  · rintro rfl
    ext pos
    rw [← h.test_iff, h'.test_iff]
  · rintro rfl
    obtain ⟨data⟩ := b
    obtain ⟨data'⟩ := b'
    refine congrArg Bitset.mk (List.ext_getElem (h.length.trans h'.length.symm) fun i hi hi' => ?_)
    refine BitVec.eq_of_getLsbD_eq fun j hj => ?_
    have htest := (h.test_iff (64 * i + j)).trans (h'.test_iff (64 * i + j)).symm
    have hdiv : (64 * i + j) / 64 = i := by omega
    have hmod : (64 * i + j) % 64 = j := by omega
    rw [test, test, hdiv, hmod] at htest
    simp only [List.getElem?_eq_getElem hi, List.getElem?_eq_getElem hi', Option.getD_some] at htest
    exact Bool.eq_iff_iff.mpr htest

end Bitset

end Porcupine

end DistributedLabs
