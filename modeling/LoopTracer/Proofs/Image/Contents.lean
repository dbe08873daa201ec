import LoopTracer.Proofs.Image.RoundTrip

/-! What stands in a file.

`Contents` are the strings and the functions of a file as its bytes spell them, constants with their
tags and payloads, before anything is made of them. `LiesIn` says that they stand where the header
of a file points to. Every part tells its own length, so the bytes of a file spell one contents at
most (`LiesIn.unique`), and what is read from a file stands in it (`Spells`). -/
namespace LoopTracer.Bytecode.Image

/-- A constant: its tag and its payload. -/
inductive Record where
  | null
  | bool (b : UInt8)
  | int (n : UInt64)
  | float (bits : UInt64)
  /-- A place in the pool. -/
  | string (place : UInt32)
  /-- The place of a function's name in the pool. -/
  | function (place : UInt32)

def Record.bytes : Record → List UInt8
  | .null => [0]
  | .bool b => [1, b]
  | .int n => 2 :: bigEndian 8 n.toNat
  | .float bits => 3 :: bigEndian 8 bits.toNat
  | .string place => 4 :: bigEndian 4 place.toNat
  | .function place => 5 :: bigEndian 4 place.toNat

/-- A function as it stands in a file. -/
structure Entry where
  /-- The place of its name in the pool. -/
  name : UInt32
  id : UInt32
  arity : UInt16
  locals : UInt16
  code : List UInt8
  lines : List UInt32
  constants : List Record

def Entry.bytes (e : Entry) : List UInt8 :=
  bigEndian 4 e.name.toNat ++ (bigEndian 4 e.id.toNat ++ (bigEndian 2 e.arity.toNat ++
    (bigEndian 2 e.locals.toNat ++ (bigEndian 4 e.code.length ++ (e.code ++
      (bigEndian 4 e.lines.length ++ ((e.lines.map fun n => bigEndian 4 n.toNat).flatten ++
        (bigEndian 4 e.constants.length ++ (e.constants.map Record.bytes).flatten))))))))

/-- The lengths that are written fit their fields. -/
structure Entry.Fits (e : Entry) : Prop where
  code : e.code.length < 256 ^ 4
  lines : e.lines.length = e.code.length
  constants : e.constants.length < 256 ^ 4

/-- The two sections of a file. -/
structure Contents where
  strings : List Text
  functions : List Entry

namespace Contents

/-- The bytes of the first section. -/
def pool (c : Contents) : List UInt8 :=
  bigEndian 4 c.strings.length ++ (c.strings.map stringBytes).flatten

/-- The bytes of the second section. -/
def body (c : Contents) : List UInt8 :=
  bigEndian 4 c.functions.length ++ (c.functions.map Entry.bytes).flatten

/-- The lengths that are written fit their fields. -/
structure Fits (c : Contents) : Prop where
  strings : c.strings.length < 256 ^ 4
  string : ∀ t ∈ c.strings, t.size < 256 ^ 4
  functions : c.functions.length < 256 ^ 4
  function : ∀ e ∈ c.functions, e.Fits

/-- The contents stand in a file where its header points to: `strings` and `functions` are the
places of the two sections. -/
structure LiesIn (c : Contents) (data : ByteArray) (strings functions : UInt32) : Prop where
  fits : c.Fits
  header : At data 8 (bigEndian 4 strings.toNat ++ bigEndian 4 functions.toNat)
  pool : At data strings.toNat c.pool
  body : At data functions.toNat c.body

end Contents

/-! ### Parts that tell their length -/

namespace At

variable {data data' : ByteArray} {place n a b : Nat} {bytes bytes' more more' : List UInt8}

theorem of_le (h : place ≤ data.size) : At data place [] := by
  refine ⟨data.data.toList.take place, data.data.toList.drop place, by simp, ?_⟩
  rw [List.length_take, Array.length_toList]
  exact Nat.min_eq_left h

theorem append (h : At data place bytes) (h' : At data (place + bytes.length) more) :
    At data place (bytes ++ more) := by
  obtain ⟨before, after, hdata, rfl⟩ := h
  obtain ⟨before', after', hdata', hplace⟩ := h'
  have hall : before ++ bytes ++ after = before' ++ more ++ after' := hdata.symm.trans hdata'
  rw [List.append_assoc before'] at hall
  obtain ⟨hbefore, rfl⟩ := List.append_inj hall (by rw [List.length_append, hplace])
  exact ⟨before, after', by rw [hdata]; simp, rfl⟩

/-- Bytes of one length in one place are the same. -/
theorem unique (h : At data place bytes) (h' : At data place bytes')
    (hlength : bytes.length = bytes'.length) :
    bytes = bytes' := by
  have hslice := h.extract
  rw [hlength, h'.extract] at hslice
  simpa using congrArg (fun x : ByteArray => x.data.toList) hslice.symm

/-- A number in one place is one number. -/
theorem number_unique (h : At data place (bigEndian n a ++ more))
    (h' : At data place (bigEndian n b ++ more'))
    (ha : a < 256 ^ n) (hb : b < 256 ^ n) : a = b := by
  have hsame := h.left.unique h'.left (by simp)
  rw [← value_bigEndian ha, hsame, value_bigEndian hb]

/-- Bytes behind a number. -/
theorem behind (h : At data place (bigEndian n a ++ more)) : At data (place + n) more := by
  have h := h.right
  rwa [length_bigEndian] at h

theorem head_unique {x y : UInt8} (h : At data place (x :: more))
    (h' : At data place (y :: more')) : x = y := by
  have hx : At data place ([x] ++ more) := h
  have hy : At data place ([y] ++ more') := h'
  exact (List.cons.inj (hx.left.unique hy.left rfl)).1

theorem tail {x : UInt8} (h : At data place (x :: more)) : At data (place + 1) more := by
  have hx : At data place ([x] ++ more) := h
  exact hx.right

theorem append_nil (h : At data place bytes) : At data place (bytes ++ []) := by
  rwa [List.append_nil]

/-- What stands in the beginning of a file stands in the file. -/
theorem of_extract {size : Nat}
    (h : At (data.extract 0 size) place bytes) : At data place bytes := by
  obtain ⟨before, after, hdata, hplace⟩ := h
  refine ⟨before, after ++ data.data.toList.drop size, ?_, hplace⟩
  rw [ByteArray.data_extract, Array.toList_extract] at hdata
  have hsplit := List.take_append_drop size data.data.toList
  rw [← hsplit, ← List.append_assoc, ← hdata, List.extract_eq_take_drop]
  simp

end At

/-- What stands in a place, in whatever file, is one thing only. -/
def Distinct {α : Type} (f : α → List UInt8) (P : α → Prop) : Prop :=
  ∀ ⦃data place a b more more'⦄, P a → P b → At data place (f a ++ more) →
    At data place (f b ++ more') → a = b

namespace Distinct

variable {α : Type} {f : α → List UInt8} {P : α → Prop}

/-- As many such things in a row. -/
theorem list (h : Distinct f P) {data : ByteArray} {place : Nat} {l l' : List α}
    {more more' : List UInt8}
    (hl : ∀ a ∈ l, P a) (hl' : ∀ a ∈ l', P a) (hlength : l.length = l'.length)
    (hat : At data place ((l.map f).flatten ++ more))
    (hat' : At data place ((l'.map f).flatten ++ more')) : l = l' := by
  induction l generalizing l' place with
  | nil => exact (List.length_eq_zero_iff.mp hlength.symm).symm
  | cons a l ih =>
    cases l' with
    | nil => cases hlength
    | cons b l' =>
      rw [List.map_cons, List.flatten_cons, List.append_assoc] at hat hat'
      obtain rfl := h (hl a (by simp)) (hl' b (by simp)) hat hat'
      have hrest := ih (fun x hx => hl x (by simp [hx])) (fun x hx => hl' x (by simp [hx]))
        (by simpa using hlength) hat.right hat'.right
      rw [hrest]

end Distinct

theorem distinct_string : Distinct stringBytes (·.size < 256 ^ 4) := by
  intro data place t u more more' ht hu hat hat'
  unfold stringBytes at hat hat'
  rw [List.append_assoc] at hat hat'
  have hsize := hat.number_unique hat' ht hu
  have hbytes :=
    hat.behind.left.unique hat'.behind.left (by simpa [Text.toList, Text.size] using hsize)
  rw [← Text.ofList_toList t, hbytes, Text.ofList_toList]

theorem distinct_record : Distinct Record.bytes fun _ => True := by
  intro data place r s more more' _ _ hat hat'
  cases r <;> cases s
  -- the tags tell the kinds apart
  all_goals try exact absurd (hat.head_unique hat') (by decide)
  case null.null => rfl
  case bool.bool b b' => rw [hat.tail.head_unique hat'.tail]
  case int.int n n' =>
    rw [UInt64.toNat.inj (hat.tail.number_unique hat'.tail n.toNat_lt n'.toNat_lt)]
  case float.float n n' =>
    rw [UInt64.toNat.inj (hat.tail.number_unique hat'.tail n.toNat_lt n'.toNat_lt)]
  case string.string n n' =>
    rw [UInt32.toNat.inj (hat.tail.number_unique hat'.tail n.toNat_lt n'.toNat_lt)]
  case function.function n n' =>
    rw [UInt32.toNat.inj (hat.tail.number_unique hat'.tail n.toNat_lt n'.toNat_lt)]

theorem distinct_line : Distinct (fun n : UInt32 => bigEndian 4 n.toNat) fun _ => True := by
  intro data place n n' more more' _ _ hat hat'
  exact UInt32.toNat.inj (hat.number_unique hat' n.toNat_lt n'.toNat_lt)

theorem distinct_entry : Distinct Entry.bytes Entry.Fits := by
  intro data place e e' more more' he he' hat hat'
  simp only [Entry.bytes, List.append_assoc] at hat hat'
  have hname := hat.number_unique hat' e.name.toNat_lt e'.name.toNat_lt
  replace hat := hat.behind
  replace hat' := hat'.behind
  have hid := hat.number_unique hat' e.id.toNat_lt e'.id.toNat_lt
  replace hat := hat.behind
  replace hat' := hat'.behind
  have harity := hat.number_unique hat' e.arity.toNat_lt e'.arity.toNat_lt
  replace hat := hat.behind
  replace hat' := hat'.behind
  have hlocals := hat.number_unique hat' e.locals.toNat_lt e'.locals.toNat_lt
  replace hat := hat.behind
  replace hat' := hat'.behind
  have hsize := hat.number_unique hat' he.code he'.code
  replace hat := hat.behind
  replace hat' := hat'.behind
  have hcode := hat.left.unique hat'.left hsize
  replace hat := hat.right
  replace hat' := hat'.right
  rw [← hsize] at hat'
  have hlines := distinct_line.list (fun _ _ => trivial) (fun _ _ => trivial)
    (he.lines.trans (hsize.trans he'.lines.symm)) hat.behind hat'.behind
  rw [← hlines] at hat'
  replace hat := hat.behind.right
  replace hat' := hat'.behind.right
  have hcount := hat.number_unique hat' he.constants he'.constants
  have hconstants :=
    distinct_record.list (fun _ _ => trivial) (fun _ _ => trivial) hcount hat.behind hat'.behind
  cases e
  cases e'
  simp only [Entry.mk.injEq]
  exact ⟨UInt32.toNat.inj hname, UInt32.toNat.inj hid, UInt16.toNat.inj harity,
    UInt16.toNat.inj hlocals, hcode,
    hlines, hconstants⟩

/-- A file spells one contents at most. -/
theorem Contents.LiesIn.unique {c c' : Contents} {data : ByteArray}
    {strings functions strings' functions' : UInt32}
    (h : c.LiesIn data strings functions) (h' : c'.LiesIn data strings' functions') :
    c = c' ∧ strings = strings' ∧ functions = functions' := by
  have hstrings :=
    UInt32.toNat.inj (h.header.number_unique h'.header strings.toNat_lt strings'.toNat_lt)
  have hfunctions :=
    UInt32.toNat.inj (h.header.behind.append_nil.number_unique h'.header.behind.append_nil
    functions.toNat_lt functions'.toNat_lt)
  subst hstrings hfunctions
  have hpool := h.pool
  have hpool' := h'.pool
  have hbody := h.body
  have hbody' := h'.body
  unfold Contents.pool at hpool hpool'
  unfold Contents.body at hbody hbody'
  have hcount := hpool.number_unique hpool' h.fits.strings h'.fits.strings
  have hnumber := hbody.number_unique hbody' h.fits.functions h'.fits.functions
  have htexts := distinct_string.list h.fits.string h'.fits.string hcount hpool.behind.append_nil
    hpool'.behind.append_nil
  have hentries :=
    distinct_entry.list h.fits.function h'.fits.function hnumber hbody.behind.append_nil
    hbody'.behind.append_nil
  cases c
  cases c'
  simp only [Contents.mk.injEq]
  exact ⟨⟨htexts, hentries⟩, trivial, trivial⟩

/-- What is written into a file stands in it. -/
theorem Contents.Fits.liesIn {c : Contents} (h : c.Fits) (main : Nat)
    (hsize : headerSize + c.pool.length < 2 ^ 32) :
    c.LiesIn (fileBytes main c.pool c.body).toByteArray (.ofNat headerSize)
    (.ofNat (headerSize + c.pool.length)) := by
  have hwhole : At (fileBytes main c.pool c.body).toByteArray 0 (fileBytes main c.pool c.body) :=
    ⟨[], [], by simp, rfl⟩
  have hplaces := hwhole.right.right.right.right
  have hstrings : (UInt32.ofNat headerSize).toNat = headerSize := rfl
  have hfunctions : (UInt32.ofNat (headerSize + c.pool.length)).toNat =
      headerSize + c.pool.length :=
    UInt32.toNat_ofNat_of_lt' hsize
  refine ⟨h, ?_, ?_, ?_⟩
  · rw [hstrings, hfunctions]
    rw [← List.append_assoc] at hplaces
    exact hplaces.left
  · exact hplaces.right.right.right.left
  · rw [hfunctions]
    exact hplaces.right.right.right.right

end LoopTracer.Bytecode.Image
