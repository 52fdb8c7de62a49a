import Mathlib
import FlowFacts.Proofs.RowVectors

/-!
# Packed rows are lists of bits

`BitRow.toList` reads a row of bits off its words. The words hold these bits and zeros behind them, so that nothing is
lost by reading whole words: rows with the same bits are equal (`BitRow.toList_injective`), a row is zero if its words are,
and the first one of a row is that of its first word that is not zero (`BitRow.packs_toList`).

A `BitRow.Term` builds a row by any sequence of operations. `BitRow.Term.packed` carries them out on words and
`BitRow.Term.plain` on lists, and both come to the same bits (`BitRow.Term.map_packed`).
-/

namespace FlowFacts

open Bits

namespace BitRow

/-- The bit at a position of a list. -/
def bitOf (bits : List Bool) (i : Nat) : Except Fault Bool :=
  match bits[i]? with
  | some b => .ok b
  | none => .error (.bitIndex i bits.length)

/-- A row that holds a list of bits: the words have these bits and zeros after them, and what can be asked of the row is
what can be asked of the list. -/
structure Packs (r : BitRow) (bits : List Bool) : Prop where
  toList : r.toList = bits
  length : r.length = bits.length
  wordCount : r.words.length = (bits.length + 63) / 64
  stored : ∀ i, bitAt r.words i = bits.getD i false
  get : ∀ i, r.get i = bitOf bits i
  isZero : r.isZero = bits.all (!·)
  firstOne : r.firstOne = bits.findIdx? id

/-! ## Reading a row -/

theorem bit_eq_getD (r : BitRow) (i : Nat) : r.bit i = r.toList.getD i false := by
  by_cases h : i < r.toList.length
  · rw [List.getD_eq_getElem _ _ h, getElem_toList]
  · rw [List.getD_eq_default _ _ (Nat.le_of_not_lt h)]
    exact r.clean i (by simpa using h)

theorem exists_bit_of_mem {r : BitRow} {b : Bool} (h : b ∈ r.toList) : ∃ i < r.length, r.bit i = b := by
  obtain ⟨i, hi, hb⟩ := List.mem_map.1 h
  exact ⟨i, List.mem_range.1 hi, hb⟩

/-- Behind the end of a row there are only zeros. -/
theorem lt_length_of_bit {r : BitRow} {i : Nat} (h : r.bit i = true) : i < r.length := by
  by_contra hge
  have hclean : r.bit i = false := r.clean i (Nat.le_of_not_lt hge)
  rw [h] at hclean
  cases hclean

/-- The words of a row, bit by bit. -/
theorem getLsbD_words (r : BitRow) {k j : Nat} (hk : k < r.words.length) (hj : j < 64) :
    r.words[k].toBitVec.getLsbD j = r.bit (k * 64 + j) := by
  rw [bit, bitAt, show (k * 64 + j) / 64 = k by omega, show (k * 64 + j) % 64 = j by omega,
    List.getD_eq_getElem _ _ hk]

/-- A row has the bits of a list if it has its length and its bit at each position. -/
theorem toList_eq {r : BitRow} {bits : List Bool} (hlength : r.length = bits.length)
    (h : ∀ (i : Nat) (hi : i < bits.length), r.bit i = bits[i]) : r.toList = bits := by
  refine List.ext_getElem (by rw [length_toList, hlength]) fun i hi hi' => ?_
  rw [getElem_toList, h i hi']

theorem get_eq_bitOf (r : BitRow) (i : Nat) : r.get i = bitOf r.toList i := by
  unfold get bitOf
  by_cases h : i < r.length
  · rw [if_pos h, List.getElem?_eq_getElem (by simpa using h), getElem_toList]
  · rw [if_neg h, List.getElem?_eq_none (by simpa using h), length_toList]

theorem isZero_eq_all (r : BitRow) : r.isZero = r.toList.all (!·) := by
  rw [Bool.eq_iff_iff, isZero, List.all_eq_true, List.all_eq_true]
  constructor
  · intro h b hb
    obtain ⟨i, hi, rfl⟩ := exists_bit_of_mem hb
    have hk : i / 64 < r.words.length := by rw [r.wordCount]; omega
    have hword : r.words[i / 64] = 0 := by simpa using h _ (List.getElem_mem hk)
    rw [bit_eq_false_of_word (by rw [List.getD_eq_getElem _ _ hk, hword])]
    rfl
  · intro h w hw
    obtain ⟨k, hk, rfl⟩ := List.getElem_of_mem hw
    -- A bit that is set in a word is one of the row.
    by_contra hne
    obtain ⟨j, hj, hset⟩ := exists_bit_of_ne_zero (show r.words[k] ≠ 0 by simpa using hne)
    rw [getLsbD_words r hk hj] at hset
    have hmem : true ∈ r.toList := hset ▸ List.mem_map_of_mem (List.mem_range.2 (lt_length_of_bit hset))
    exact absurd (h _ hmem) (by decide)

theorem firstOne_eq_findIdx? (r : BitRow) : r.firstOne = r.toList.findIdx? id := by
  cases hfirst : r.firstOne with
  | none =>
    refine (List.findIdx?_eq_none_iff.2 fun b hb => ?_).symm
    obtain ⟨i, -, rfl⟩ := exists_bit_of_mem hb
    exact firstOne_none hfirst i
  | some c =>
    obtain ⟨hset, hbelow⟩ := firstOne_some hfirst
    have hc : c < r.toList.length := by
      rw [length_toList]
      exact lt_length_of_bit hset
    refine (List.findIdx?_eq_some_iff_getElem.2 ⟨hc, ?_, fun j hj => ?_⟩).symm
    · rw [getElem_toList, hset]
      rfl
    · rw [getElem_toList, hbelow j hj]
      decide

theorem packs_toList (r : BitRow) : Packs r r.toList where
  toList := rfl
  length := r.length_toList.symm
  wordCount := by rw [length_toList, r.wordCount]
  stored := r.bit_eq_getD
  get := r.get_eq_bitOf
  isZero := r.isZero_eq_all
  firstOne := r.firstOne_eq_findIdx?

/-- Rows with the same bits have the same words. -/
theorem toList_injective : Function.Injective toList := by
  intro r s h
  have hlength : r.length = s.length := by rw [← length_toList, h, length_toList]
  have hbit : ∀ i, r.bit i = s.bit i := fun i => by rw [bit_eq_getD, bit_eq_getD, h]
  have hwords : r.words = s.words := by
    refine List.ext_getElem (by rw [r.wordCount, s.wordCount, hlength]) fun k hk hk' => ?_
    rw [← UInt64.toBitVec_inj]
    refine BitVec.eq_of_getLsbD_eq fun j hj => ?_
    rw [getLsbD_words r hk hj, getLsbD_words s hk' hj, hbit]
  obtain ⟨_, _, _, _⟩ := r
  obtain ⟨_, _, _, _⟩ := s
  subst hlength hwords
  rfl

/-! ## Operations -/

theorem toList_zeros (n : Nat) : (zeros n).toList = List.replicate n false := by
  refine toList_eq (by simp [zeros]) fun i hi => ?_
  rw [bit, zeros, bitAt_replicate, List.getElem_replicate]

theorem toList_ofFn (n : Nat) (f : Nat → Bool) : (ofFn n f).toList = (List.range n).map f := by
  refine toList_eq (by simp [ofFn]) fun i hi => ?_
  have hi : i < n := by simpa using hi
  rw [bit_ofFn, decide_eq_true hi, Bool.true_and, List.getElem_map, List.getElem_range]

theorem toList_ofList (bits : List Bool) : (ofList bits).toList = bits := by
  rw [ofList, toList_ofFn]
  refine List.ext_getElem (by simp) fun i hi hi' => ?_
  simp [hi']

theorem map_set (r : BitRow) (i : Nat) (b : Bool) :
    toList <$> r.set i b =
      if i < r.toList.length then .ok (r.toList.set i b) else .error (.bitIndex i r.toList.length) := by
  rw [set, length_toList]
  split
  · next hi =>
    refine congrArg Except.ok (toList_eq (by simp [put]) fun k hk => ?_)
    rw [bit_put hi, List.getElem_set, getElem_toList]
    simp only [eq_comm]
  · rfl

theorem map_xor (r s : BitRow) :
    toList <$> r.xor s =
      if s.toList.length = r.toList.length then .ok (List.zipWith Bool.xor r.toList s.toList) else .error .bitLengths := by
  rw [xor, length_toList, length_toList]
  split
  · next h =>
    refine congrArg Except.ok (toList_eq (by simp [add, h]) fun k hk => ?_)
    rw [bit_add, List.getElem_zipWith, getElem_toList, getElem_toList]
  · rfl

theorem map_project (r : BitRow) (indices : List Nat) :
    toList <$> r.project indices = indices.mapM (bitOf r.toList) := by
  have hget : r.get = bitOf r.toList := funext r.get_eq_bitOf
  rw [project, hget, map_bind]
  simp only [map_pure, toList_ofList, bind_pure]

theorem map_truncated (r : BitRow) :
    toList <$> r.truncated = if r.toList = [] then .error .noBits else .ok r.toList.dropLast := by
  have hnil : r.toList = [] ↔ r.length = 0 := by rw [← List.length_eq_zero_iff, length_toList]
  rw [truncated]
  by_cases h : r.length = 0
  · rw [if_pos h, if_pos (hnil.2 h)]
    rfl
  · rw [if_neg h, if_neg (mt hnil.1 h)]
    refine congrArg Except.ok (toList_eq (by simp [ofFn]) fun i hi => ?_)
    have hi : i < r.length - 1 := by simpa using hi
    rw [bit_ofFn, decide_eq_true hi, Bool.true_and, List.getElem_dropLast, getElem_toList]

/-! ## Sequences of operations -/

/-- Ways to build a row. -/
inductive Term where
  | zeros (n : Nat)
  | ofList (bits : List Bool)
  | set (t : Term) (i : Nat) (b : Bool)
  | xor (s t : Term)
  | project (t : Term) (indices : List Nat)
  | truncated (t : Term)

namespace Term

/-- The row that is built, or why it is not. -/
def packed : Term → Except Fault BitRow
  | zeros n => .ok (.zeros n)
  | ofList bits => .ok (.ofList bits)
  | set t i b => do (← t.packed).set i b
  | xor s t => do (← s.packed).xor (← t.packed)
  | project t indices => do (← t.packed).project indices
  | truncated t => do (← t.packed).truncated

/-- The list of bits that is built in the same way. -/
def plain : Term → Except Fault (List Bool)
  | zeros n => .ok (List.replicate n false)
  | ofList bits => .ok bits
  | set t i b => do
    let bits ← t.plain
    if i < bits.length then .ok (bits.set i b) else .error (.bitIndex i bits.length)
  | xor s t => do
    let bits ← s.plain
    let others ← t.plain
    if others.length = bits.length then .ok (List.zipWith Bool.xor bits others) else .error .bitLengths
  | project t indices => do indices.mapM (bitOf (← t.plain))
  | truncated t => do
    let bits ← t.plain
    if bits = [] then .error .noBits else .ok bits.dropLast

theorem map_packed (t : Term) : toList <$> t.packed = t.plain := by
  induction t with
  | zeros n => exact congrArg Except.ok (toList_zeros n)
  | ofList bits => exact congrArg Except.ok (toList_ofList bits)
  | set t i b ih => simp only [packed, plain, ← ih, map_bind, bind_map_left, map_set]
  | xor s t ihs iht => simp only [packed, plain, ← ihs, ← iht, map_bind, bind_map_left, map_xor]
  | project t indices ih => simp only [packed, plain, ← ih, map_bind, bind_map_left, map_project]
  | truncated t ih => simp only [packed, plain, ← ih, map_bind, bind_map_left, map_truncated]

theorem exists_packed {t : Term} {bits : List Bool} (h : t.plain = .ok bits) :
    ∃ r, t.packed = .ok r ∧ r.toList = bits := by
  rw [← map_packed] at h
  cases hpacked : t.packed with
  | error fault =>
    rw [hpacked] at h
    cases h
  | ok r =>
    rw [hpacked] at h
    exact ⟨r, rfl, Except.ok.inj h⟩

/-- Where a sequence of operations gives a list of bits, it gives a row that packs this list, with zeros in the rest of the
last word, and two such rows are equal exactly if their lists are. Where the operations on the list are refused, those on
the row are. -/
theorem packed_exact (s t : Term) :
    (∀ bits, s.plain = .ok bits → ∃ r, s.packed = .ok r ∧ Packs r bits ∧
      ∀ others, t.plain = .ok others → ∃ q, t.packed = .ok q ∧ (r = q ↔ bits = others)) ∧
    ∀ fault, s.plain = .error fault → s.packed = .error fault := by
  constructor
  · intro bits hbits
    obtain ⟨r, hr, rfl⟩ := exists_packed hbits
    refine ⟨r, hr, r.packs_toList, fun others hothers => ?_⟩
    obtain ⟨q, hq, rfl⟩ := exists_packed hothers
    exact ⟨q, hq, toList_injective.eq_iff.symm⟩
  · intro fault hfault
    rw [← map_packed] at hfault
    cases hpacked : s.packed with
    | error e =>
      rw [hpacked] at hfault
      exact congrArg Except.error (Except.error.inj hfault)
    | ok r =>
      rw [hpacked] at hfault
      cases hfault

/-- A row of two words with its last bit set. -/
def lastSet : Term := set (zeros 70) 69 true

/-- The same, with the first bit of the second word set and cleared again. -/
def lastSetAgain : Term := set (set lastSet 64 true) 64 false

/-- Both are the same row. Its first one is found in its second word, and there is no bit after the last one. -/
theorem packed_exact_lastSet :
    (∃ r q, lastSet.packed = .ok r ∧ lastSetAgain.packed = .ok q ∧ r = q ∧ r.words.length = 2 ∧
      r.firstOne = some 69 ∧ bitAt r.words 70 = false) ∧
    (set lastSet 70 true).packed = .error (.bitIndex 70 70) := by
  have hlast : lastSet.plain = .ok ((List.replicate 70 false).set 69 true) := rfl
  have hagain : lastSetAgain.plain = .ok ((List.replicate 70 false).set 69 true) := rfl
  obtain ⟨r, hr, hpacks, hsame⟩ := (packed_exact lastSet lastSetAgain).1 _ hlast
  obtain ⟨q, hq, heq⟩ := hsame _ hagain
  refine ⟨⟨r, q, hr, hq, heq.2 rfl, hpacks.wordCount, hpacks.firstOne, hpacks.stored 70⟩, ?_⟩
  exact (packed_exact (set lastSet 70 true) lastSet).2 _ rfl

end Term

end BitRow

end FlowFacts
