import Mathlib.Algebra.Group.Int.Defs
import Mathlib.Algebra.GroupWithZero.Nat
import LoopTracer.Machine.Memory

/-! Code memory as bytes.

A memory keeps blocks, but all that anybody sees of it are its bytes. A write changes the bytes it
covers and no others, and a number that was written is read back. -/
namespace LoopTracer.Machine

namespace Memory

variable {m : Memory} {a place : Nat}

/-- Every block that was written has its full size. -/
def Valid (m : Memory) : Prop := ∀ (k : Nat) (b : ByteArray), m.blocks[k]? = some b →
  b.size = blockSize

theorem valid_blank (n : Nat) : Valid { size := n } := by
  intro k b h
  simp at h

theorem Valid.block (hm : m.Valid) (place : Nat) : (m.block place).size = blockSize := by
  unfold Memory.block
  rw [Std.TreeMap.getD_eq_getD_getElem?]
  cases h : m.blocks[place / blockSize]? with
  | none =>
    show (Array.replicate blockSize (0 : UInt8)).size = blockSize
    exact Array.size_replicate
  | some b => exact hm _ _ h

/-! ### Single bytes -/

theorem get?_of_ge (ha : m.size ≤ a) : m.get? a = none := if_neg (by omega)

@[simp] theorem size_set (m : Memory) (place : Nat) (b : UInt8) :
    (m.set place b).size = m.size := by
  unfold set
  split <;> rfl

theorem getElem?_set! (bytes : ByteArray) (i j : Nat) (b : UInt8) :
    (bytes.set! i b)[j]? = if i = j ∧ i < bytes.size then some b else bytes[j]? := by
  obtain ⟨data⟩ := bytes
  show (data.set! i b)[j]? = if i = j ∧ i < data.size then some b else data[j]?
  rw [Array.set!_eq_setIfInBounds, Array.getElem?_setIfInBounds]
  by_cases hij : i = j
  · subst hij
    by_cases hi : i < data.size
    · simp [hi]
    · simp [hi]
  · simp [hij]

theorem block_set (hp : place < m.size) (b : UInt8) (a : Nat) :
    (m.set place b).block a =
      if place / blockSize = a / blockSize then (m.block place).set! (place % blockSize) b
      else m.block a := by
  unfold set
  rw [if_pos hp]
  unfold block
  rw [Std.TreeMap.getD_eq_getD_getElem?, Std.TreeMap.getElem?_insert]
  by_cases hk : place / blockSize = a / blockSize
  · simp [hk]
  · simp [hk, Std.TreeMap.getD_eq_getD_getElem?]

theorem set_valid (hm : m.Valid) (place : Nat) (b : UInt8) : (m.set place b).Valid := by
  unfold set
  split
  · intro k bytes hk
    rw [Std.TreeMap.getElem?_insert] at hk
    split at hk
    · obtain rfl := Option.some.inj hk
      have := hm.block place
      revert this
      obtain ⟨data⟩ := m.block place
      intro this
      show (data.set! _ _).size = _
      rw [Array.set!_eq_setIfInBounds, Array.size_setIfInBounds]
      exact this
    · exact hm k bytes hk
  · exact hm

theorem get?_set (hm : m.Valid) (hp : place < m.size) (b : UInt8) (a : Nat) :
    (m.set place b).get? a = if a = place then some b else m.get? a := by
  unfold get?
  rw [size_set, block_set hp]
  by_cases hblock : place / blockSize = a / blockSize
  · rw [if_pos hblock, getElem?_set!, hm.block place]
    have hmod : place % blockSize < blockSize := Nat.mod_lt _ (by decide)
    have hsame : m.block a = m.block place := by
      unfold block
      rw [hblock]
    by_cases hoffset : place % blockSize = a % blockSize
    · have heq : a = place := by
        rw [← Nat.div_add_mod a blockSize, ← Nat.div_add_mod place blockSize, hblock, hoffset]
      subst heq
      simp [hp, hmod]
    · have hne : a ≠ place := fun h => hoffset (h ▸ rfl)
      have hother : ¬ (place % blockSize = a % blockSize ∧ place % blockSize < blockSize) :=
        fun h => hoffset h.1
      rw [if_neg hother, if_neg hne, hsame]
  · have hne : a ≠ place := fun h => hblock (h ▸ rfl)
    rw [if_neg hblock, if_neg hne]

/-! ### Writing -/

@[simp] theorem size_write (m : Memory) (place : Nat) (bytes : List UInt8) :
    (m.write place bytes).size = m.size := by
  induction bytes generalizing m place with
  | nil => rfl
  | cons b rest ih => rw [write, ih, size_set]

theorem write_valid (hm : m.Valid) (place : Nat) (bytes : List UInt8) :
    (m.write place bytes).Valid := by
  induction bytes generalizing m place with
  | nil => exact hm
  | cons b rest ih => exact ih (set_valid hm place b) _

/-- A write inside the memory changes the bytes it covers and no others. -/
theorem get?_write (hm : m.Valid) {bytes : List UInt8}
    (hfit : place + bytes.length ≤ m.size) (a : Nat) :
    (m.write place bytes).get? a =
      if place ≤ a ∧ a < place + bytes.length then bytes[a - place]? else m.get? a := by
  induction bytes generalizing m place with
  | nil =>
    rw [List.length_nil, if_neg (by omega)]
    rfl
  | cons b rest ih =>
    rw [List.length_cons] at hfit
    rw [write, ih (set_valid hm place b) (by rw [size_set]; omega),
      get?_set hm (by omega), List.length_cons]
    by_cases hfirst : a = place
    · subst hfirst
      rw [if_neg (by omega), if_pos rfl, if_pos (by omega), Nat.sub_self, List.getElem?_cons_zero]
    · by_cases hin : place + 1 ≤ a ∧ a < place + 1 + rest.length
      · rw [if_pos hin, if_pos (by omega), show a - place = a - (place + 1) + 1 by omega,
          List.getElem?_cons_succ]
      · rw [if_neg hin, if_neg hfirst, if_neg (by omega)]

/-! ### Numbers -/

/-- Bytes that agree with those of a list. -/
def Shows (m : Memory) (place : Nat) (bytes : List UInt8) : Prop :=
  ∀ (i : Nat) (b : UInt8), bytes[i]? = some b → m.get? (place + i) = some b

theorem shows_write (hm : m.Valid) {bytes : List UInt8} (hfit : place + bytes.length ≤ m.size) :
    (m.write place bytes).Shows place bytes := by
  intro i b hi
  have hlt := (List.getElem?_eq_some_iff.mp hi).1
  rw [get?_write hm hfit, if_pos (by omega), Nat.add_sub_cancel_left]
  exact hi

/-- What is shown depends on no other bytes. -/
theorem Shows.congr {m' : Memory} {bytes : List UInt8} (h : m.Shows place bytes)
    (hsame : ∀ a, place ≤ a → a < place + bytes.length →
      m'.get? a = m.get? a) : m'.Shows place bytes := by
  intro i b hi
  have hlt := (List.getElem?_eq_some_iff.mp hi).1
  rw [hsame _ (by omega) (by omega)]
  exact h i b hi

theorem Shows.append_right {l r : List UInt8} (h : m.Shows place (l ++ r)) :
    m.Shows (place + l.length) r := by
  intro i b hi
  rw [Nat.add_assoc]
  refine h _ b ?_
  rw [List.getElem?_append_right (by omega), Nat.add_sub_cancel_left]
  exact hi

theorem Shows.append_left {l r : List UInt8} (h : m.Shows place (l ++ r)) : m.Shows place l := by
  intro i b hi
  have hlt := (List.getElem?_eq_some_iff.mp hi).1
  refine h _ b ?_
  rw [List.getElem?_append_left hlt]
  exact hi

/-- Overwriting bytes in the middle. -/
theorem Shows.replace (hm : m.Valid) {l x x' r : List UInt8} (h : m.Shows place (l ++ (x ++ r)))
    (hlength : x'.length = x.length) (hfit : place + (l ++ (x ++ r)).length ≤ m.size) :
    (m.write (place + l.length) x').Shows place (l ++ (x' ++ r)) := by
  intro i b hi
  simp only [List.length_append] at hfit
  rw [get?_write hm (by omega)]
  rcases Nat.lt_or_ge i l.length with hl | hl
  · rw [if_neg (by omega)]
    rw [List.getElem?_append_left hl] at hi
    exact h i b (by rw [List.getElem?_append_left hl, hi])
  · rw [List.getElem?_append_right hl] at hi
    rcases Nat.lt_or_ge (i - l.length) x'.length with hx | hx
    · rw [List.getElem?_append_left hx] at hi
      rw [if_pos (by omega), show place + i - (place + l.length) = i - l.length by omega, hi]
    · rw [List.getElem?_append_right hx] at hi
      rw [if_neg (by omega)]
      refine h i b ?_
      rw [List.getElem?_append_right hl, List.getElem?_append_right (by omega), ← hlength, hi]

theorem window_getElem? (m : Memory) {place count i : Nat} (hi : i < count) :
    ((m.window place count).1[(m.window place count).2 + i]?).getD 0 =
      (m.get? (place + i)).getD 0 := by
  unfold window
  split
  · next hwithin =>
    rw [Bool.and_eq_true, decide_eq_true_eq, decide_eq_true_eq] at hwithin
    have hmod : (place + i) % blockSize = place % blockSize + i := by
      rw [Nat.add_mod, Nat.mod_eq_of_lt (b := blockSize) (a := i) (by omega),
        Nat.mod_eq_of_lt (by omega)]
    have hdiv : (place + i) / blockSize = place / blockSize := by
      have h₁ := Nat.div_add_mod (place + i) blockSize
      have h₂ := Nat.div_add_mod place blockSize
      rw [hmod] at h₁
      have : blockSize * ((place + i) / blockSize) = blockSize * (place / blockSize) := by omega
      exact Nat.eq_of_mul_eq_mul_left (by decide) this
    unfold get?
    rw [if_pos (by omega), hmod]
    unfold block
    rw [hdiv]
  · unfold extract
    dsimp only
    rw [Nat.zero_add]
    show ((Array.map _ (Array.range _))[i]?).getD 0 = _
    rcases Nat.lt_or_ge (place + i) m.size with hin | hout
    · rw [Array.getElem?_map, Array.getElem?_range]
      simp [show i < min (place + count) m.size - place by omega]
    · rw [get?_of_ge hout, Array.getElem?_map, Array.getElem?_range]
      simp [show ¬ i < min (place + count) m.size - place by omega]

end Memory

@[simp] theorem length_littleEndian (count n : Nat) : (littleEndian count n).length = count := by
  induction count generalizing n with
  | zero => rfl
  | succ count ih => rw [littleEndian, List.length_cons, ih]

/-- A number is read back from the bytes it was written to. -/
theorem readLittle_of_bytes {bytes : ByteArray} {place count n : Nat}
    (h : ∀ i b, (littleEndian count n)[i]? = some b → bytes[place + i]?.getD 0 = b) :
    readLittle bytes place count = n % 256 ^ count := by
  induction count generalizing place n with
  | zero => simp [readLittle, Nat.mod_one]
  | succ count ih =>
    rw [readLittle, ih (n := n / 256) fun i b hi => by
      rw [Nat.add_assoc, Nat.add_comm 1]
      exact h (i + 1) b (by rw [littleEndian, List.getElem?_cons_succ, hi])]
    have hfirst := h 0 n.toUInt8 rfl
    rw [Nat.add_zero] at hfirst
    rw [hfirst, Nat.pow_succ, Nat.mul_comm (256 ^ count), Nat.mod_mul]
    simp

theorem Memory.Shows.readLittle {m : Memory} {place count n : Nat}
    (h : m.Shows place (littleEndian count n)) : m.readLittle place count = n % 256 ^ count := by
  have hbytes : ∀ i b, (littleEndian count n)[i]? = some b →
      ((m.window place count).1[(m.window place count).2 + i]?).getD 0 = b := by
    intro i b hi
    have hlt : i < count := by simpa using (List.getElem?_eq_some_iff.mp hi).1
    rw [window_getElem? m hlt, h i b hi]
    rfl
  exact readLittle_of_bytes hbytes

end LoopTracer.Machine
