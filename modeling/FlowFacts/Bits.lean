import FlowFacts.Linear.Matrix

/-!
Rows of bits, packed into words of 64 bits so that two rows are added a word at a time. Bit `i` of a
row is bit `i % 64` of word `i / 64`, and the bits of the last word beyond the end of the row are
zero. Rows with the same bits are therefore the same value, and a row is zero when its words are.
Matrices of bits are linear systems modulo two.
-/

namespace FlowFacts

namespace Bits

/-- Bit `i` of a list of words, zero beyond the last word. A row has a word for each of its
positions, so `BitRow.get` and `BitRow.set` never look beyond the last one. -/
def bitAt (words : List UInt64) (i : Nat) : Bool :=
  (words.getD (i / 64) 0).toBitVec.getLsbD (i % 64)

/-- A word with one bit changed. -/
def setBit (w : UInt64) (j : Nat) (b : Bool) : UInt64 :=
  if b then w ||| UInt64.ofBitVec (BitVec.twoPow 64 j)
  else w &&& ~~~UInt64.ofBitVec (BitVec.twoPow 64 j)

/-- The position of the lowest bit that is set in a word other than zero. -/
def lowestBit (w : UInt64) : Nat :=
  ((List.range 64).find? fun j => w.toBitVec.getLsbD j).getD 64

theorem getLsbD_setBit {w : UInt64} {j k : Nat} {b : Bool} (hj : j < 64) (hk : k < 64) :
    (setBit w j b).toBitVec.getLsbD k = if k = j then b else w.toBitVec.getLsbD k := by
  cases b <;> by_cases h : k = j <;> simp [setBit, h, hk, hj]

theorem bitAt_modify {words : List UInt64} {i : Nat} (hi : i / 64 < words.length) (b : Bool)
    (k : Nat) :
    bitAt (words.modify (i / 64) (setBit · (i % 64) b)) k = if k = i then b else bitAt words k := by
  simp only [bitAt, List.getD_eq_getElem?_getD, List.getElem?_modify]
  by_cases hw : i / 64 = k / 64
  · have hk : k / 64 < words.length := hw ▸ hi
    simp only [hw, if_true, List.getElem?_eq_getElem hk, Option.map_eq_map, Option.map_some,
      Option.getD_some]
    rw [getLsbD_setBit (Nat.mod_lt _ (by decide)) (Nat.mod_lt _ (by decide))]
    by_cases h : k = i
    · simp [h]
    · rw [if_neg h, if_neg (by omega)]
  · have hk : k ≠ i := fun h => hw (by rw [h])
    simp [hw, hk]

theorem bitAt_zipWith_xor {v w : List UInt64} (h : v.length = w.length) (i : Nat) :
    bitAt (List.zipWith (· ^^^ ·) v w) i = (bitAt v i ^^ bitAt w i) := by
  simp only [bitAt, List.getD_eq_getElem?_getD, List.getElem?_zipWith]
  by_cases hi : i / 64 < v.length
  · rw [List.getElem?_eq_getElem hi, List.getElem?_eq_getElem (h ▸ hi)]
    simp
  · rw [List.getElem?_eq_none (by omega), List.getElem?_eq_none (by omega)]
    simp

/-- The word whose bits a function lists. -/
def wordOf (f : Nat → Bool) : UInt64 :=
  (List.range 64).foldl (fun w j => setBit w j (f j)) 0

theorem getLsbD_foldl_setBit (f : Nat → Bool) {k : Nat} (hk : k < 64) (js : List Nat)
    (hjs : ∀ j ∈ js, j < 64) (w : UInt64) :
    (js.foldl (fun w j => setBit w j (f j)) w).toBitVec.getLsbD k =
      if k ∈ js then f k else w.toBitVec.getLsbD k := by
  induction js generalizing w with
  | nil => rfl
  | cons j rest ih =>
    rw [List.foldl_cons, ih (fun i hi => hjs i (List.mem_cons_of_mem _ hi)),
      getLsbD_setBit (hjs j List.mem_cons_self) hk]
    by_cases h : k = j
    · simp [h]
    · simp [h]

theorem getLsbD_wordOf (f : Nat → Bool) {k : Nat} (hk : k < 64) :
    (wordOf f).toBitVec.getLsbD k = f k := by
  rw [wordOf, getLsbD_foldl_setBit f hk _ (fun j hj => List.mem_range.mp hj),
    if_pos (List.mem_range.mpr hk)]

/-- The words of a row of `n` bits that a function lists. -/
def wordsOf (n : Nat) (f : Nat → Bool) : List UInt64 :=
  (List.range ((n + 63) / 64)).map fun i => wordOf fun j => i * 64 + j < n && f (i * 64 + j)

theorem bitAt_wordsOf (n : Nat) (f : Nat → Bool) (i : Nat) :
    bitAt (wordsOf n f) i = (decide (i < n) && f i) := by
  simp only [bitAt, wordsOf, List.getD_eq_getElem?_getD, List.getElem?_map]
  by_cases h : i / 64 < (n + 63) / 64
  · rw [List.getElem?_range h, Option.map_some, Option.getD_some,
      getLsbD_wordOf _ (Nat.mod_lt _ (by decide)), Nat.div_add_mod']
  · have hi : ¬ i < n := by omega
    rw [List.getElem?_eq_none (by simpa using h)]
    simp [hi]

theorem bitAt_replicate (n i : Nat) : bitAt (List.replicate n 0) i = false := by
  simp only [bitAt, List.getD_eq_getElem?_getD, List.getElem?_replicate]
  split <;> simp

end Bits

open Bits

/-- A row of bits. -/
structure BitRow where
  length : Nat
  words : List UInt64
  wordCount : words.length = (length + 63) / 64
  clean : ∀ i, length ≤ i → bitAt words i = false
  deriving DecidableEq

namespace BitRow

def zeros (n : Nat) : BitRow where
  length := n
  words := List.replicate ((n + 63) / 64) 0
  wordCount := List.length_replicate
  clean i _ := bitAt_replicate _ i

/-- The bit at a position, zero beyond the end. -/
def bit (r : BitRow) (i : Nat) : Bool := bitAt r.words i

/-- The row with the bit at one of its positions changed. -/
def put (r : BitRow) (i : Nat) (h : i < r.length) (b : Bool) : BitRow where
  length := r.length
  words := r.words.modify (i / 64) (setBit · (i % 64) b)
  wordCount := by rw [List.length_modify, r.wordCount]
  clean := by
    intro k hk
    rw [bitAt_modify (by rw [r.wordCount]; omega), if_neg (by omega)]
    exact r.clean k hk

/-- The row of a given length whose bits a function lists. -/
def ofFn (n : Nat) (f : Nat → Bool) : BitRow where
  length := n
  words := wordsOf n f
  wordCount := by simp [wordsOf]
  clean i hi := by rw [bitAt_wordsOf, decide_eq_false (by omega), Bool.false_and]

def ofList (bits : List Bool) : BitRow :=
  let bits := bits.toArray
  ofFn bits.size fun i => bits.getD i false

def toList (r : BitRow) : List Bool := (List.range r.length).map r.bit

/-- The bit at a position of the row. -/
def get (r : BitRow) (i : Nat) : Except Fault Bool :=
  if i < r.length then .ok (r.bit i) else .error (.bitIndex i r.length)

/-- The row with the bit at a position changed, if it has that position. -/
def set (r : BitRow) (i : Nat) (b : Bool) : Except Fault BitRow :=
  if h : i < r.length then .ok (r.put i h b) else .error (.bitIndex i r.length)

def isEmpty (r : BitRow) : Bool := r.length == 0

def isZero (r : BitRow) : Bool := r.words.all (· == 0)

/-- The position of the first bit that is set. -/
def firstOne (r : BitRow) : Option Nat :=
  (r.words.zipIdx.find? fun (w, _) => w != 0).map fun (w, i) => i * 64 + lowestBit w

/-- The sum of two rows of one length, bit by bit and modulo two. -/
def add (r s : BitRow) (h : s.length = r.length) : BitRow where
  length := r.length
  words := List.zipWith (· ^^^ ·) r.words s.words
  wordCount := by rw [List.length_zipWith, r.wordCount, s.wordCount, h, Nat.min_self]
  clean := by
    intro i hi
    rw [bitAt_zipWith_xor (by rw [r.wordCount, s.wordCount, h]), r.clean i hi, s.clean i (h ▸ hi)]
    rfl

/-- The sum of two rows, if they are equally long. -/
def xor (r s : BitRow) : Except Fault BitRow :=
  if h : s.length = r.length then .ok (r.add s h) else .error .bitLengths

/-- The bits at some positions, in the order given. -/
def project (r : BitRow) (indices : List Nat) : Except Fault BitRow :=
  return ofList (← indices.mapM r.get)

/-- The row without its last bit. -/
def truncated (r : BitRow) : Except Fault BitRow :=
  if r.length = 0 then .error .noBits else .ok (ofFn (r.length - 1) r.bit)

/-- A digit for each bit. -/
def render (r : BitRow) : String := String.ofList (r.toList.map fun b => if b then '1' else '0')

end BitRow

/-- Bits are added and multiplied modulo two, and the one bit that is not zero is one. -/
instance : Scalar Bool where
  zero := false
  one := true
  add := Bool.xor
  neg b := b
  mul := Bool.and
  reciprocal b := if b then .ok true else .error .zeroDivisor

instance : Row Bool BitRow where
  length := BitRow.length
  zeros := BitRow.zeros
  get := BitRow.get
  put := BitRow.set
  scale k r := if k then r else BitRow.zeros r.length
  plus r k p := if k then r.xor p else .ok r
  init _ r := r.truncated
  lead := BitRow.firstOne
  length_scale k r := by cases k <;> rfl
  length_plus := by
    intro r k p q h
    cases k with
    | false => cases h; rfl
    | true =>
      have h : r.xor p = .ok q := h
      rw [BitRow.xor] at h
      split at h
      · cases h; rfl
      · cases h

/-- A matrix of bits. -/
abbrev BitMatrix := RowMatrix BitRow

/-- One line of digits for each row. -/
def BitMatrix.render (m : BitMatrix) : String := "\n".intercalate (m.rows.map BitRow.render)

end FlowFacts
