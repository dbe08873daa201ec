import LoopTracer.Proofs.Image.Denoted

/-! Files that are cut off.

What `write` makes is the header and some contents, whatever the program is: `write_contents` reads
them off the writers, one record for each constant and one entry for each function. If the beginning
of such a file were a program, its contents would stand in the whole file too, where there is room for
one contents only, and they reach to the last byte. So no proper beginning of a file can be read. -/
namespace LoopTracer.Bytecode

/-- The strings that a constant puts into the pool. -/
def Value.texts : Value → List Text
  | .str s => [s]
  | .func (some r) => [r.name]
  | _ => []

/-- The strings that a function puts into the pool, in order. -/
def Function.texts (f : Function) : List Text :=
  f.name :: (f.chunk.getD {}).constants.toList.flatMap Value.texts

namespace Image

/-- A pool with more strings. -/
def Pool.addAll (p : Pool) (l : List Text) : Pool := l.foldl (fun q t => (q.add t).1) p

theorem Pool.addAll_append (p : Pool) (l l' : List Text) :
    p.addAll (l ++ l') = (p.addAll l).addAll l' :=
  List.foldl_append

end Image

/-- The strings of a program as they are stored. -/
def Program.pool (p : Program) : Image.Pool :=
  Image.Pool.addAll {} (p.functions.toList.flatMap Function.texts)

/-- Everything that a file says a length of, and the first section as a whole, is shorter than four
gigabytes. -/
structure Program.Sized (p : Program) : Prop where
  functions : p.functions.size < 2 ^ 32
  code : ∀ f ∈ p.functions, ∀ c, f.chunk = some c → c.size < 2 ^ 32
  constants : ∀ f ∈ p.functions, ∀ c, f.chunk = some c → c.constants.size < 2 ^ 32
  pool : Image.headerSize + (Image.poolBytes p.pool.strings).length < 2 ^ 32

/-- The line tables are as long as the code. -/
def Program.Lined (p : Program) : Prop :=
  ∀ f ∈ p.functions, ∀ c, f.chunk = some c → c.lines.size = c.size

namespace Image

/-! ### What the writers write -/

theorem bigEndian_mod (width n : Nat) :
    bigEndian width (n % 2 ^ (8 * width)) = bigEndian width n := by
  have h : bigEndian width ((n : Int) % (Nat.pow 2 (8 * width) : Nat)).toNat = _ :=
    bigEndian_emod (Int.natCast_nonneg n)
  rwa [← Int.natCast_emod, Int.toNat_natCast, Int.toNat_natCast] at h

theorem bigEndian_ofNat (n : Nat) : bigEndian 4 (UInt32.ofNat n).toNat = bigEndian 4 n := by
  rw [UInt32.toNat_ofNat']
  exact bigEndian_mod 4 n

/-- A constant is written as a record. -/
theorem writeValue_record {p p' : Pool} {v : Value} {bytes : List UInt8}
    (h : writeValue p v = .ok (p', bytes)) :
    p' = p.addAll v.texts ∧ ∃ r : Record, bytes = r.bytes := by
  cases v with
  | null =>
    cases h
    exact ⟨rfl, .null, rfl⟩
  | bool b =>
    cases h
    exact ⟨rfl, .bool (if b then 1 else 0), rfl⟩
  | int n =>
    cases h
    refine ⟨rfl, .int (.ofNat (n.toInt % (Nat.pow 2 64 : Nat)).toNat), ?_⟩
    have hlt : (n.toInt % (Nat.pow 2 64 : Nat)).toNat < 2 ^ 64 := by
      show (n.toInt % (2 ^ 64 : Nat)).toNat < 2 ^ 64
      omega
    rw [Record.bytes, UInt64.toNat_ofNat_of_lt' hlt, int64Bytes]
  | float x =>
    cases h
    exact ⟨rfl, .float x.bits, rfl⟩
  | str s =>
    cases h
    exact ⟨rfl, .string (.ofNat (p.add s).2), congrArg (4 :: ·) (bigEndian_ofNat _).symm⟩
  | func r =>
    cases r with
    | none => cases h
    | some r =>
      cases h
      exact ⟨rfl, .function (.ofNat (p.add r.name).2), congrArg (5 :: ·) (bigEndian_ofNat _).symm⟩
  | reserved tag => cases h

theorem writeConstants_records (l : List Value) {p p' : Pool} {acc out : ByteArray}
    (h : l.foldlM (fun ((p, acc) : Pool × ByteArray) v => do
        let (p, bytes) ← (writeValue p v).mapError WriteFailure.format
        return (p, acc ++ bytes.toByteArray)) (p, acc) = .ok (p', out)) :
    p' = p.addAll (l.flatMap Value.texts) ∧ ∃ rs : List Record, rs.length = l.length ∧
      out = acc ++ (rs.map Record.bytes).flatten.toByteArray := by
  induction l generalizing p acc with
  | nil =>
    cases h
    exact ⟨rfl, [], rfl, by simp⟩
  | cons v l ih =>
    rw [List.foldlM_cons] at h
    obtain ⟨⟨p₁, acc₁⟩, hfirst, hrest⟩ := answer_eq_ok h
    obtain ⟨⟨p₂, bytes⟩, hwrite, hpair⟩ := answer_eq_ok hfirst
    cases hpair
    obtain ⟨rfl, r, rfl⟩ := writeValue_record (mapError_eq_ok hwrite)
    obtain ⟨rfl, rs, hlength, rfl⟩ := ih hrest
    refine ⟨by rw [List.flatMap_cons, Pool.addAll_append], r :: rs, by simp [hlength], ?_⟩
    rw [List.map_cons, List.flatten_cons, List.toByteArray_append, ByteArray.append_assoc]

/-- An entry with the lengths of a function's code and tables. -/
structure Entry.Measures (f : Function) (e : Entry) : Prop where
  chunk : ∃ c, f.chunk = some c ∧ e.code.length = c.size ∧ e.lines.length = c.lines.size ∧
    e.constants.length = c.constants.size

/-- The entry that is written for a function; the constants are up to the writer of constants. -/
def entry (name : Nat) (f : Function) (c : Chunk) (constants : List Record) : Entry where
  name := .ofNat name
  id := f.id
  arity := .ofNat (f.arity % (Nat.pow 2 16 : Nat)).toNat
  locals := .ofNat (f.locals % (Nat.pow 2 16 : Nat)).toNat
  code := c.code.data.toList
  lines := c.lines.toList.map fun n : Int => .ofNat (n % (Nat.pow 2 32 : Nat)).toNat
  constants

theorem writeFunction_entry {p p' : Pool} {acc out : ByteArray} {f : Function}
    (h : writeFunction p acc f = .ok (p', out)) :
    p' = p.addAll f.texts ∧ ∃ e : Entry, e.Measures f ∧ out = acc ++ e.bytes.toByteArray := by
  have low (n : Int) (width : Nat) : (n % (Nat.pow 2 width : Nat)).toNat < 2 ^ width := by
    have hpos : (0 : Int) < (Nat.pow 2 width : Nat) := Int.natCast_pos.mpr (Nat.pow_pos (by decide))
    have hlt := Int.emod_lt_of_pos n hpos
    have := Int.emod_nonneg n (Int.ne_of_gt hpos)
    show _ < Nat.pow 2 width
    omega
  have hlines (l : List Int) (acc : ByteArray) : l.foldl (fun (acc : ByteArray) (n : Int) =>
      acc ++ (bigEndian 4 (n % (Nat.pow 2 (8 * 4) : Nat)).toNat).toByteArray) acc =
      acc ++ ((l.map fun n : Int => UInt32.ofNat (n % (Nat.pow 2 32 : Nat)).toNat).map
        fun n => bigEndian 4 n.toNat).flatten.toByteArray := by
    rw [foldl_append_bytes, List.map_map]
    congr 3
    refine List.map_congr_left fun n _ => ?_
    rw [Function.comp_apply, UInt32.toNat_ofNat_of_lt' (low n 32)]
  unfold writeFunction at h
  by_cases hbig : (decide (65535 < f.locals) || decide (65535 < f.arity)) = true
  · rw [if_pos hbig] at h
    cases h
  · rw [if_neg hbig] at h
    cases hchunk : f.chunk with
    | none =>
      rw [hchunk] at h
      cases h
    | some c =>
      simp only [hchunk, ← Array.foldlM_toList, ← Array.foldl_toList] at h
      obtain ⟨rfl, rs, hlength, rfl⟩ := writeConstants_records c.constants.toList h
      refine ⟨?_, entry (p.add f.name).2 f c rs, ⟨c, hchunk, ?_, ?_, ?_⟩, ?_⟩
      · rw [Function.texts, hchunk]
        rfl
      · exact Array.length_toList
      · simp [entry]
      · simp [entry, hlength]
      · rw [hlines]
        have hnumber (width : Nat) (n : Nat) : ((n : Int) % (Nat.pow 2 (8 * width) : Nat)).toNat =
            n % 2 ^ (8 * width) := by
          rw [← Int.natCast_emod, Int.toNat_natCast]
          rfl
        have hcode : c.code.data.toList.length = c.size := Array.length_toList
        simp only [hnumber, bigEndian_mod, Entry.bytes, entry, List.toByteArray_append,
          ByteArray.append_assoc,
          toByteArray_toList, bigEndian_ofNat, UInt16.toNat_ofNat_of_lt' (low _ 16),
          List.length_map, hlength,
          Array.length_toList, hcode]

theorem writeFunctions_entries (l : List Function) {p p' : Pool} {acc out : ByteArray}
    (h : l.foldlM (fun ((p, acc) : Pool × ByteArray) f => writeFunction p acc f)
      (p, acc) = .ok (p', out)) :
    p' = p.addAll (l.flatMap Function.texts) ∧ ∃ es : List Entry, es.length = l.length ∧
      (∀ e ∈ es, ∃ f ∈ l, e.Measures f) ∧ out = acc ++
        (es.map Entry.bytes).flatten.toByteArray := by
  induction l generalizing p acc with
  | nil =>
    cases h
    exact ⟨rfl, [], rfl, nofun, by simp⟩
  | cons f l ih =>
    rw [List.foldlM_cons] at h
    obtain ⟨⟨p₁, acc₁⟩, hfirst, hrest⟩ := answer_eq_ok h
    obtain ⟨rfl, e, he, rfl⟩ := writeFunction_entry hfirst
    obtain ⟨rfl, es, hlength, hes, rfl⟩ := ih hrest
    refine ⟨by rw [List.flatMap_cons, Pool.addAll_append], e :: es, by simp [hlength],
      fun e' he' => ?_, ?_⟩
    · rcases List.mem_cons.mp he' with rfl | he'
      · exact ⟨f, by simp, he⟩
      · obtain ⟨g, hg, hmeasures⟩ := hes e' he'
        exact ⟨g, by simp [hg], hmeasures⟩
    rw [List.map_cons, List.flatten_cons, List.toByteArray_append, ByteArray.append_assoc]

/-- What is written for a program is the header and contents with the strings of the program. -/
theorem write_contents {p : Program} {data : ByteArray} (h : write p = .ok data) :
    ∃ (main : Nat) (c : Contents), data = (fileBytes main c.pool c.body).toByteArray ∧
      c.strings = p.pool.strings.toList ∧ c.functions.length = p.functions.size ∧
      ∀ e ∈ c.functions, ∃ f ∈ p.functions, e.Measures f := by
  unfold write at h
  obtain ⟨main, hmain⟩ : ∃ main, p.main = .listed main := by
    cases hmain : p.main with
    | listed i => exact ⟨i, rfl⟩
    | _ =>
      rw [hmain] at h
      cases h
  rw [hmain] at h
  replace h : (p.functions.foldlM (fun ((p, acc) : Pool × ByteArray) f => writeFunction p acc f)
    ({}, (bigEndian 4 p.functions.size).toByteArray) >>= _) = .ok data := h
  obtain ⟨⟨pool, functions⟩, hwrite, h⟩ := answer_eq_ok h
  cases h
  rw [← Array.foldlM_toList] at hwrite
  obtain ⟨rfl, es, hcount, hes, rfl⟩ := writeFunctions_entries p.functions.toList hwrite
  replace hcount : es.length = p.functions.size := hcount.trans Array.length_toList
  refine ⟨main, ⟨p.pool.strings.toList, es⟩, ?_, rfl, hcount, fun e he => by simpa using hes e he⟩
  have hversion : [version.1, version.2, 0, 0] = [version.1] ++ ([version.2] ++ [0, 0]) := rfl
  have hpool : Contents.pool ⟨p.pool.strings.toList, es⟩ = poolBytes p.pool.strings := rfl
  rw [Pool.bytes_eq, hversion, hpool]
  simp only [Contents.body, hcount, fileBytes, List.toByteArray_append, ByteArray.append_assoc,
    List.size_toByteArray]
  rfl

/-! ### Cut off -/

/-- What stands in the beginning of a file stands in the file. -/
theorem Contents.LiesIn.of_extract {c : Contents} {data : ByteArray} {n : Nat}
    {strings functions : UInt32}
    (h : c.LiesIn (data.extract 0 n) strings functions) : c.LiesIn data strings functions :=
  ⟨h.fits, h.header.of_extract, h.pool.of_extract, h.body.of_extract⟩

theorem fits_of_sized {p : Program} {c : Contents} (h : p.Sized) (hlines : p.Lined)
    (hstrings : c.strings = p.pool.strings.toList) (hcount : c.functions.length = p.functions.size)
    (hfunctions : ∀ e ∈ c.functions, ∃ f ∈ p.functions, e.Measures f) :
    c.Fits ∧ headerSize + c.pool.length < 2 ^ 32 := by
  have hpool : headerSize + c.pool.length < 2 ^ 32 := by
    have hsame : c.pool = poolBytes p.pool.strings := by
      rw [Contents.pool, hstrings]
      rfl
    rw [hsame]
    exact h.pool
  have hsections : headerSize + (4 + (c.strings.map stringBytes).flatten.length) < 256 ^ 4 := by
    rwa [Contents.pool, List.length_append, length_bigEndian] at hpool
  refine ⟨⟨?_, fun t ht => ?_, ?_, fun e he => ?_⟩, hpool⟩
  · have hle := length_le_flatten (c.strings.map stringBytes) fun bytes hbytes => by
      obtain ⟨t, -, rfl⟩ := List.mem_map.mp hbytes
      rw [length_stringBytes]
      omega
    rw [List.length_map] at hle
    omega
  · have hle := (List.sublist_flatten_of_mem (List.mem_map_of_mem (f := stringBytes) ht)).length_le
    rw [length_stringBytes] at hle
    omega
  · rw [hcount]
    exact h.functions
  · obtain ⟨f, hf, chunk, hchunk, hcode, hline, hconstants⟩ := hfunctions e he
    refine ⟨?_, ?_, ?_⟩
    · rw [hcode]
      exact h.code f hf chunk hchunk
    · rw [hline, hcode, hlines f hf chunk hchunk]
    · rw [hconstants]
      exact h.constants f hf chunk hchunk

/-- A written file cannot be read without its last bytes, wherever it is cut off: there is an error,
and it is not a stray access. -/
theorem truncated_rejected {p : Program} {data : ByteArray} (h : write p = .ok data)
    (hlines : p.Lined)
    (hsized : p.Sized) {n : Nat} (hn : n < data.size) :
    ∃ e, read (data.extract 0 n) = .error e ∧ e.Sober := by
  obtain ⟨main, c, rfl, hstrings, hcount, hfunctions⟩ := write_contents h
  obtain ⟨hfits, hpool⟩ := fits_of_sized hsized hlines hstrings hcount hfunctions
  have hlies := hfits.liesIn main hpool
  generalize hdata : (fileBytes main c.pool c.body).toByteArray = data at hlies hn ⊢
  have hparse := parse_answers (data.extract 0 n)
  unfold read
  cases hx : parse (data.extract 0 n) with
  | error e =>
    rw [hx] at hparse
    exact ⟨e, rfl, hparse⟩
  | ok q =>
    -- the contents of the beginning are those of the file, and they reach to its end
    obtain ⟨c', s, f, hcut, -⟩ := contents_of_parse hx
    obtain ⟨rfl, rfl, rfl⟩ := hcut.of_extract.unique hlies
    have hend := hcut.body.le
    have hsize : data.size = headerSize + c'.pool.length + c'.body.length := by
      rw [← hdata, List.size_toByteArray]
      simp [fileBytes, headerSize]
      omega
    rw [ByteArray.size_extract, UInt32.toNat_ofNat_of_lt' hpool] at hend
    omega

/-- The greeting's file, cut off anywhere. -/
theorem greeting_cut_off : ∃ data, write greeting = .ok data ∧ data.size = 157 ∧
    ∀ n < data.size, ∃ e, read (data.extract 0 n) = .error e ∧ e.Sober := by
  have hsize : (write greeting).toOption.map ByteArray.size = some 157 := by decide +kernel
  have hfunctions {P : Function → Prop} (h : ∀ f ∈ greeting.functions.toList, P f) : ∀ f ∈
      greeting.functions, P f :=
    fun f hf => h f (by simpa using hf)
  have hlines : greeting.Lined := hfunctions (by simp [greeting]; decide)
  have hsized : greeting.Sized :=
    ⟨by decide, hfunctions (by simp [greeting]; decide), hfunctions (by simp [greeting]),
      by decide +kernel⟩
  cases hwrite : write greeting with
  | error e =>
    rw [hwrite] at hsize
    cases hsize
  | ok data =>
    rw [hwrite] at hsize
    exact ⟨data, rfl, Option.some.inj hsize, fun n hn => truncated_rejected hwrite hlines hsized hn⟩

end Image

end LoopTracer.Bytecode
