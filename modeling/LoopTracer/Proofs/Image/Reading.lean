import LoopTracer.Bytecode.Image
import LoopTracer.Proofs.Computation

/-! Reading the bytes of a file.

What the readers of a file do with any bytes at all: `Gives r P` says that the reader `r`, wherever
it stands in whatever file, ends without a stray access and gives only what satisfies `P`. The
readers of numbers and slices have this by their own checks, and it passes through sequences and
repetition. -/
namespace LoopTracer.Bytecode.Image

/-! ### Numbers in bytes -/

theorem foldl_eq {β : Type} (f : β → UInt8 → β) (init : β) (bytes : ByteArray) :
    bytes.foldl f init = bytes.data.toList.foldl f init := by
  have hloop : ∀ (i j : Nat) (acc : β), i + j = bytes.size →
      ByteArray.foldlM.loop (m := Id) (fun acc b => pure (f acc b)) bytes bytes.size
        (Nat.le_refl _) i j acc
        = (bytes.data.toList.drop j).foldl f acc := by
    intro i
    induction i with
    | zero =>
      intro j acc hj
      have hlen : bytes.data.toList.length ≤ j := by
        rw [Array.length_toList, ByteArray.size_data]
        omega
      rw [ByteArray.foldlM.loop, List.drop_eq_nil_of_le hlen]
      split <;> rfl
    | succ i ih =>
      intro j acc hj
      have hlt : j < bytes.size := by omega
      have hlen : j < bytes.data.toList.length := hlt
      rw [ByteArray.foldlM.loop, dif_pos hlt, List.drop_eq_getElem_cons hlen, List.foldl_cons]
      exact ih (j + 1) _ (by omega)
  unfold ByteArray.foldl ByteArray.foldlM
  rw [dif_pos (Nat.le_refl _)]
  exact hloop bytes.size 0 init (by omega)

/-- Adds one byte at the low end of a number. -/
def shiftIn (acc : Nat) (b : UInt8) : Nat := acc * 256 + b.toNat

theorem value_eq (bytes : ByteArray) : value bytes = bytes.data.toList.foldl shiftIn 0 :=
  foldl_eq shiftIn 0 bytes

theorem foldl_shiftIn_lt (l : List UInt8) (n : Nat) :
    l.foldl shiftIn n < (n + 1) * 256 ^ l.length := by
  induction l generalizing n with
  | nil => simp
  | cons b rest ih =>
    have hb : b.toNat < 256 := b.toNat_lt
    calc rest.foldl shiftIn (shiftIn n b)
        < (shiftIn n b + 1) * 256 ^ rest.length := ih _
      _ ≤ ((n + 1) * 256) * 256 ^ rest.length := Nat.mul_le_mul_right _ (by unfold shiftIn; omega)
      _ = (n + 1) * 256 ^ (rest.length + 1) := by rw [Nat.pow_succ', Nat.mul_assoc]

theorem value_lt (bytes : ByteArray) : value bytes < 256 ^ bytes.size := by
  have h := foldl_shiftIn_lt bytes.data.toList 0
  rw [Nat.zero_add, Nat.one_mul, Array.length_toList] at h
  rw [value_eq]
  exact h

/-! ### Readers -/

variable {α β : Type}

theorem bind_apply (r : Read α) (k : α → Read β) (data : ByteArray) (place : Nat) :
    (r >>= k) data place = r data place >>= fun x => k x.1 data x.2 := rfl

theorem pure_apply (a : α) (data : ByteArray) (place : Nat) :
    (pure a : Read α) data place = .ok (a, place) := rfl

theorem slice_of_le {data : ByteArray} {place n : Nat} (h : place + n ≤ data.size) :
    slice data place n = .ok (data.extract place (place + n)) := if_pos h

theorem number_apply (n : Nat) (data : ByteArray) (place : Nat) :
    number n data place = if data.size < place + n then .error .unexpectedEnd
      else .ok (value (data.extract place (place + n)), place + n) := by
  change (if data.size < place + n then _ else _ : Read Nat) data place = _
  by_cases h : data.size < place + n
  · rw [if_pos h, if_pos h]
    rfl
  · rw [if_neg h, if_neg h]
    show ((slice data place n >>= fun b => .ok (b, place + n)) >>= fun x => .ok (value x.1, x.2)) =
      _
    rw [slice_of_le (by omega)]
    rfl

theorem take_apply (n : Nat) (e : Error) (data : ByteArray) (place : Nat) :
    take n e data place = if data.size < place + n then .error e
      else .ok (data.extract place (place + n), place + n) := by
  change (if data.size < place + n then _ else _ : Read ByteArray) data place = _
  by_cases h : data.size < place + n
  · rw [if_pos h, if_pos h]
    rfl
  · rw [if_neg h, if_neg h]
    show (slice data place n >>= fun b => .ok (b, place + n)) = _
    rw [slice_of_le (by omega)]
    rfl

theorem count_apply (e : Error) (data : ByteArray) (place : Nat) :
    count e data place = number 4 data place >>= fun x =>
      if data.size < x.1 then .error e else .ok x := by
  show (number 4 data place >>= fun x => (if data.size < x.1 then _ else _ : Read Nat) data x.2) = _
  congr 1
  funext x
  by_cases h : data.size < x.1
  · rw [if_pos h, if_pos h]
    rfl
  · rw [if_neg h, if_neg h]
    rfl

/-! ### What readers give -/

/-- An error that is no stray access. -/
def Sober (e : Error) : Prop := ∀ f, e ≠ .fault f

/-- Wherever a reader stands in whatever file, it makes no stray access and gives only what
satisfies `P`. -/
def Gives (r : Read α) (P : α → Prop) : Prop :=
  ∀ data place, Answers Sober (r data place) fun x => P x.1

namespace Gives

variable {P Q : α → Prop} {R : β → Prop} {r : Read α} {k : α → Read β}

theorem pure {a : α} (h : P a) : Gives (pure a) P := fun _ _ => h

theorem throw {e : Error} (h : Sober e) : Gives (throw e) P := fun _ _ => h

theorem bind (hr : Gives r P) (hk : ∀ a, P a → Gives (k a) R) : Gives (r >>= k) R :=
  fun data place => (hr data place).bind fun x hx => hk x.1 hx data x.2

theorem mono (hr : Gives r P) (h : ∀ a, P a → Q a) : Gives r Q :=
  fun data place => (hr data place).mono fun x => h x.1

end Gives

theorem number_gives (n : Nat) : Gives (number n) (· < 256 ^ n) := by
  intro data place
  rw [number_apply]
  by_cases h : data.size < place + n
  · rw [if_pos h]
    exact fun _ => nofun
  · rw [if_neg h]
    have hlt := value_lt (data.extract place (place + n))
    rwa [ByteArray.size_extract, show min (place + n) data.size - place = n by omega] at hlt

theorem take_gives (n : Nat) {e : Error} (he : Sober e) : Gives (take n e) (·.size = n) := by
  intro data place
  rw [take_apply]
  by_cases h : data.size < place + n
  · rw [if_pos h]
    exact he
  · rw [if_neg h]
    show (data.extract place (place + n)).size = n
    rw [ByteArray.size_extract]
    omega

theorem count_gives {e : Error} (he : Sober e) : Gives (count e) fun _ => True := by
  intro data place
  rw [count_apply]
  refine (number_gives 4 data place).bind fun x _ => ?_
  by_cases h : data.size < x.1
  · rw [if_pos h]
    exact he
  · rw [if_neg h]
    trivial

/-- Reading many items gives that many, each as the reader of one gives it. -/
theorem many_gives {item : Read α} {P : α → Prop} (hitem : Gives item P) (n : Nat) (acc : Array α)
    (hacc : ∀ a ∈ acc, P a) :
    Gives (many item n acc) fun out => out.size = acc.size + n ∧ ∀ a ∈ out, P a := by
  induction n generalizing acc with
  | zero => exact .pure ⟨rfl, hacc⟩
  | succ n ih =>
    refine .bind hitem fun a ha => (ih (acc.push a) fun x hx => ?_).mono fun out hout => ?_
    · rcases Array.mem_push.mp hx with hx | rfl
      · exact hacc x hx
      · exact ha
    · rw [Array.size_push] at hout
      exact ⟨by omega, hout.2⟩

theorem stringAt_gives (pool : Array Text) (i : Nat) : Gives (stringAt pool i) fun _ => True := by
  unfold stringAt
  cases pool[i]? with
  | none => exact .throw fun _ => nofun
  | some t => exact .pure trivial

theorem pool_gives : Gives pool fun _ => True := by
  refine .bind (count_gives fun _ => nofun) fun n _ => ?_
  refine (many_gives (P := fun _ => True) ?_ n #[] nofun).mono fun _ _ => trivial
  refine .bind (number_gives 4) fun size _ => ?_
  refine .bind (take_gives size fun _ => nofun) fun _ _ => ?_
  exact .pure trivial

/-! ### Bytes in their place

`At data place bytes` says where bytes stand in a file, and `Reads r bytes a` that the reader `r`,
wherever it meets these bytes, reads `a` from them and stops right behind. A reader made of two parts
reads the bytes of both in a row, so a layout is read back piece by piece, in the order in which it
was written. -/

@[simp] theorem length_bigEndian (count n : Nat) : (bigEndian count n).length = count := by
  simp [bigEndian]

theorem bigEndian_succ (count n : Nat) :
    bigEndian (count + 1) n = (n >>> (8 * count)).toUInt8 :: bigEndian count n := by
  unfold bigEndian
  rw [List.range_succ_eq_map, List.map_cons, List.map_map]
  congr 1
  refine List.map_congr_left fun i hi => ?_
  have := List.mem_range.mp hi
  rw [Function.comp_apply, show count + 1 - 1 - (i + 1) = count - 1 - i by omega]

theorem foldl_bigEndian (count n acc : Nat) :
    (bigEndian count n).foldl shiftIn acc = acc * 256 ^ count + n % 256 ^ count := by
  induction count generalizing acc with
  | zero => simp [bigEndian, Nat.mod_one]
  | succ count ih =>
    have hbyte : (n >>> (8 * count)).toUInt8.toNat = n / 256 ^ count % 256 := by
      rw [Nat.toUInt8_eq, UInt8.toNat_ofNat', Nat.shiftRight_eq_div_pow, Nat.pow_mul]
    rw [bigEndian_succ, List.foldl_cons, ih, shiftIn, hbyte, Nat.mod_pow_succ, Nat.pow_succ',
      Nat.add_mul, Nat.mul_assoc, Nat.mul_comm (256 ^ count)]
    omega

/-! ### Places -/

/-- The bytes stand in the file from the place on. -/
def At (data : ByteArray) (place : Nat) (bytes : List UInt8) : Prop :=
  ∃ before after, data.data.toList = before ++ bytes ++ after ∧ before.length = place

namespace At

variable {data : ByteArray} {place : Nat} {bytes more : List UInt8}

theorem le (h : At data place bytes) : place + bytes.length ≤ data.size := by
  obtain ⟨before, after, hdata, rfl⟩ := h
  rw [← ByteArray.size_data, ← Array.length_toList, hdata]
  simp only [List.length_append]
  omega

theorem left (h : At data place (bytes ++ more)) : At data place bytes := by
  obtain ⟨before, after, hdata, hplace⟩ := h
  exact ⟨before, more ++ after, by simpa using hdata, hplace⟩

theorem right (h : At data place (bytes ++ more)) : At data (place + bytes.length) more := by
  obtain ⟨before, after, hdata, rfl⟩ := h
  exact ⟨before ++ bytes, after, by simpa using hdata, by simp⟩

theorem extract (h : At data place bytes) :
    data.extract place (place + bytes.length) = bytes.toByteArray := by
  obtain ⟨before, after, hdata, rfl⟩ := h
  apply ByteArray.ext
  apply Array.toList_inj.mp
  rw [ByteArray.data_extract, Array.toList_extract, List.data_toByteArray, hdata]
  simp [List.extract_eq_take_drop]

theorem slice (h : At data place bytes) :
    Image.slice data place bytes.length = .ok bytes.toByteArray := by
  rw [slice_of_le h.le, h.extract]

end At

/-! ### Reading what stands there -/

/-- The reader reads `a` from the bytes, wherever it meets them. -/
def Reads {α : Type} (r : Read α) (bytes : List UInt8) (a : α) : Prop :=
  ∀ ⦃data place⦄, At data place bytes → r data place = .ok (a, place + bytes.length)

theorem value_bigEndian {count n : Nat} (h : n < 256 ^ count) :
    value (bigEndian count n).toByteArray = n := by
  rw [value_eq, List.data_toByteArray, List.toList_toArray, foldl_bigEndian,
    Nat.zero_mul, Nat.zero_add,
    Nat.mod_eq_of_lt h]

namespace Reads

variable {α β : Type} {r : Read α} {k : α → Read β} {bytes more : List UInt8} {a : α} {b : β}

theorem pure (a : α) : Reads (pure a) [] a := fun _ _ _ => rfl

theorem bind (hr : Reads r bytes a) (hk : Reads (k a) more b) :
    Reads (r >>= k) (bytes ++ more) b := by
  intro data place h
  rw [bind_apply, hr h.left, ok_bind, hk h.right, List.length_append, Nat.add_assoc]

/-- A last part that reads nothing. -/
theorem last (hr : Reads r bytes a) (hk : Reads (k a) [] b) : Reads (r >>= k) bytes b := by
  have h := hr.bind hk
  rwa [List.append_nil] at h

theorem number {count n : Nat} (h : n < 256 ^ count) :
    Reads (number count) (bigEndian count n) n := by
  intro data place hat
  have hle := hat.le
  have hextract := hat.extract
  rw [length_bigEndian] at hle hextract ⊢
  rw [number_apply, if_neg (by omega), hextract, value_bigEndian h]

/-- A number of one byte. -/
theorem byte {tag : UInt8} {k : Nat → Read β} (hk : Reads (k tag.toNat) more b) :
    Reads (Image.number 1 >>= k) (tag :: more) b := by
  have htag : bigEndian 1 tag.toNat = [tag] := by simp [bigEndian]
  have hread : Reads (Image.number 1) (bigEndian 1 tag.toNat) tag.toNat := number tag.toNat_lt
  rw [htag] at hread
  exact hread.bind hk

theorem take (e : Error) (bytes : List UInt8) :
    Reads (take bytes.length e) bytes bytes.toByteArray := by
  intro data place hat
  have hle := hat.le
  rw [take_apply, if_neg (by omega), hat.extract]

/-- A count that what follows is long enough for. -/
theorem count_bind {e : Error} {n : Nat} {k : Nat → Read β} (hn : n < 256 ^ 4)
    (hlen : n ≤ more.length) (hk : Reads (k n) more b) :
    Reads (count e >>= k) (bigEndian 4 n ++ more) b := by
  intro data place h
  have hle := h.le
  rw [List.length_append, length_bigEndian] at hle
  have hright := h.right
  rw [length_bigEndian] at hright
  rw [bind_apply, count_apply, number hn h.left, ok_bind, length_bigEndian]
  dsimp only
  rw [if_neg (by omega), ok_bind, hk hright, List.length_append, length_bigEndian, Nat.add_assoc]

/-- Items in a row. -/
theorem many {item : Read α} {pieces : List (List UInt8)} {items : List α}
    (h : List.Forall₂ (Reads item) pieces items) (acc : Array α) :
    Reads (many item items.length acc) pieces.flatten (acc ++ items.toArray) := by
  induction h generalizing acc with
  | nil =>
    rw [Array.append_empty]
    exact pure acc
  | @cons _ a _ items hitem _ ih =>
    have hrest := ih (acc.push a)
    rw [show acc.push a ++ items.toArray = acc ++ (a :: items).toArray by simp] at hrest
    exact bind hitem hrest

end Reads

end LoopTracer.Bytecode.Image
