import LoopTracer.Bytecode.Load
import LoopTracer.Proofs.Image.Reading
import LoopTracer.Proofs.Image.Loaded
import LoopTracer.Proofs.Image.Sources

/-! Files and the programs in them.

Writing a storable program always succeeds, and the file reads back as the same program. Strings go
through a pool that only grows, so a place handed out early is still good when everything is written;
function constants go through the names of their functions; stack depths are not written at all and
come back with verification. -/
namespace LoopTracer.Bytecode

/-- Every line number fits its field. -/
def Program.Numbered (p : Program) : Prop :=
  ∀ f ∈ p.functions, ∀ c, f.chunk = some c → ∀ n ∈ c.lines, n < 2 ^ 32

theorem Program.numbered_verify (p : Program) : p.verify.1.Numbered ↔ p.Numbered := by
  have hchunk (f : Function) : f.verify.1.chunk = f.chunk := by
    obtain ⟨m, hm⟩ := f.verify_fst
    rw [hm]
  simp [Numbered, verify, hchunk]

namespace Image

/-! ### The pool -/

/-- A pool with the same strings in the same places, and perhaps more of them. -/
def Pool.Grows (p q : Pool) : Prop := p.strings.toList <+: q.strings.toList

namespace Pool.Grows

variable {p q r : Pool}

theorem refl (p : Pool) : p.Grows p := List.prefix_refl _

theorem trans (h : p.Grows q) (h' : q.Grows r) : p.Grows r := List.IsPrefix.trans h h'

theorem get {i : Nat} {t : Text} (h : p.Grows q) (hi : p.strings[i]? = some t) :
    q.strings[i]? = some t := by
  rw [← Array.getElem?_toList] at hi ⊢
  obtain ⟨hlt, rfl⟩ := List.getElem?_eq_some_iff.mp hi
  exact List.prefix_iff_getElem?.mp h i hlt

end Pool.Grows

theorem Pool.add_grows (p : Pool) (t : Text) : p.Grows (p.add t).1 := by
  unfold add
  split
  · exact .refl p
  · show p.strings.toList <+: (p.strings.push t).toList
    rw [Array.toList_push]
    exact List.prefix_append _ _

theorem Pool.add_get (p : Pool) (t : Text) : (p.add t).1.strings[(p.add t).2]? = some t := by
  unfold add
  split
  · next i hi =>
    obtain ⟨hlt, ht, -⟩ := Array.findIdx?_eq_some_iff_getElem.mp hi
    rw [Array.getElem?_eq_getElem hlt, beq_iff_eq.mp ht]
  · show (p.strings.push t)[p.strings.size]? = some t
    simp

/-- A string can be read back from its place in the pool. -/
theorem Reads.string {α : Type} {strings : Array Text} {i : Nat} {t : Text} {k : Text → Read α}
    {more : List UInt8} {a : α} (h : strings[i]? = some t) (hsize : strings.size < 256 ^ 4)
    (hk : Reads (k t) more a) :
    Reads (do k (← stringAt strings (← Image.number 4))) (bigEndian 4 i ++ more) a := by
  have hi : i < strings.size := (Array.getElem?_eq_some_iff.mp h).1
  have hget : Reads (stringAt strings i) [] t := by
    unfold stringAt
    rw [h]
    exact .pure t
  exact Reads.bind (Reads.number (Nat.lt_trans hi hsize)) (hget.bind hk)

/-! ### Constants -/

/-- A constant as a file holds it: the value, or the name of the function. -/
def raw : Value → Value × Option Text
  | .func (some r) => (.null, some r.name)
  | v => (v, none)

theorem raw_eq (v : Value) : (∃ r, v = .func (some r)) ∨ raw v = (v, none) := by
  cases v with
  | func r =>
    cases r with
    | none => exact .inr rfl
    | some r => exact .inl ⟨r, rfl⟩
  | _ => exact .inr rfl

theorem toInt_ofNat_emod (n : Int32) :
    (Int64.ofNat (n.toInt % (Nat.pow 2 64 : Nat)).toNat).toInt = n.toInt := by
  have hlow := n.le_toInt
  have hhigh := n.toInt_lt
  rw [Int64.toInt_ofNat', Int.toNat_of_nonneg (Int.emod_nonneg _ (by decide)),
    show (Nat.pow 2 64 : Nat) = 2 ^ 64 from rfl, show Int64.size = 2 ^ 64 from rfl, Int.emod_bmod]
  exact Int.bmod_eq_of_le (by omega) (by omega)

/-- A written constant reads back once the pool is complete. -/
theorem writeValue_reads {names : Array Text} {v : Value} (hv : v.Storable names) (p : Pool) :
    ∃ p' bytes, writeValue p v = .ok (p', bytes) ∧ p.Grows p' ∧ 0 < bytes.length ∧
      ∀ q, p'.Grows q → q.strings.size < 256 ^ 4 → Reads (constant q.strings) bytes (raw v) := by
  cases v with
  | null => exact ⟨p, [0], rfl, .refl p, Nat.succ_pos _, fun q _ _ => .byte (.pure _)⟩
  | bool b =>
    refine ⟨p, [1, if b then 1 else 0], rfl, .refl p, Nat.succ_pos _, fun q _ _ => .byte ?_⟩
    cases b with
    | false => exact .byte (.pure _)
    | true => exact .byte (.pure _)
  | int n =>
    refine ⟨p, 2 :: int64Bytes n.toInt, rfl, .refl p, Nat.succ_pos _, fun q _ _ => .byte ?_⟩
    have hlow := n.le_toInt
    have hhigh := n.toInt_lt
    refine .last (.number ?_) ?_
    · show _ < 2 ^ 64
      show (n.toInt % (2 ^ 64 : Nat)).toNat < 2 ^ 64
      omega
    · rw [toInt_ofNat_emod]
      dsimp only
      rw [if_neg (by simp; omega), Int32.ofInt_toInt]
      exact .pure _
  | float x =>
    refine ⟨p, 3 :: bigEndian 8 x.bits.toNat, rfl, .refl p, Nat.succ_pos _, fun q _ _ => .byte ?_⟩
    refine .last (.number x.bits.toNat_lt) ?_
    show Reads (pure (Value.float ⟨UInt64.ofNat x.bits.toNat⟩, none)) [] _
    rw [UInt64.ofNat_toNat]
    exact .pure _
  | str s =>
    refine ⟨(p.add s).1, 4 :: bigEndian 4 (p.add s).2, rfl, p.add_grows s, Nat.succ_pos _,
      fun q hq hsize => .byte ?_⟩
    have hread := Reads.string (k := fun t => pure (Value.str t, (none : Option Text)))
      (hq.get (p.add_get s)) hsize (.pure _)
    rwa [List.append_nil] at hread
  | func r =>
    cases r with
    | none => exact hv.elim
    | some r =>
      refine ⟨(p.add r.name).1, 5 :: bigEndian 4 (p.add r.name).2, rfl,
        p.add_grows _, Nat.succ_pos _,
        fun q hq hsize => .byte ?_⟩
      have hread :=
        Reads.string (k := fun t => pure (Value.null, some t)) (hq.get (p.add_get r.name))
        hsize (.pure _)
      rwa [List.append_nil] at hread
  | reserved tag => exact hv.elim

/-- The loop that writes the constants of a function. -/
theorem writeConstants_reads {names : Array Text} (l : List Value) (hl : ∀ v ∈ l, v.Storable names)
    (p : Pool) (acc : ByteArray) :
    ∃ p' pieces, l.foldlM (fun ((p, acc) : Pool × ByteArray) v => do
        let (p, bytes) ← (writeValue p v).mapError WriteFailure.format
        return (p, acc ++ bytes.toByteArray)) (p, acc) =
          .ok (p', acc ++ pieces.flatten.toByteArray) ∧
      p.Grows p' ∧ l.length ≤ pieces.flatten.length ∧
      ∀ q, p'.Grows q → q.strings.size < 256 ^ 4 →
        List.Forall₂ (Reads (constant q.strings)) pieces (l.map raw) := by
  induction l generalizing p acc with
  | nil => exact ⟨p, [], by simp; rfl, .refl p, Nat.le_refl _, fun _ _ _ => .nil⟩
  | cons v rest ih =>
    obtain ⟨p₁, bytes, hwrite, hgrows, hpos, hread⟩ := writeValue_reads (hl v (by simp)) p
    obtain ⟨p₂, pieces, hrest, hgrows', hlen, hreads⟩ :=
      ih (fun w hw => hl w (by simp [hw])) p₁ (acc ++ bytes.toByteArray)
    refine ⟨p₂, bytes :: pieces, ?_, hgrows.trans hgrows', ?_, fun q hq hsize => ?_⟩
    · rw [List.foldlM_cons]
      dsimp only
      rw [hwrite]
      refine hrest.trans ?_
      rw [List.flatten_cons, List.toByteArray_append, ByteArray.append_assoc]
    · rw [List.flatten_cons, List.length_append, List.length_cons]
      omega
    · exact .cons (hread q (hgrows'.trans hq) hsize) (hreads q hq hsize)

/-! ### Functions -/

theorem bigEndian_emod {width : Nat} {n : Int} (h : 0 ≤ n) :
    bigEndian width (n % (Nat.pow 2 (8 * width) : Nat)).toNat = bigEndian width n.toNat := by
  obtain ⟨m, rfl⟩ := Int.eq_ofNat_of_zero_le h
  rw [← Int.natCast_emod, Int.toNat_natCast, Int.toNat_natCast]
  -- The bytes below the width see nothing of what the remainder cuts off.
  have hlow : ∀ count ≤ width, bigEndian count (m % Nat.pow 2 (8 * width)) = bigEndian count m := by
    intro count
    induction count with
    | zero => intro _; rfl
    | succ count ih =>
      intro hle
      rw [bigEndian_succ, bigEndian_succ, ih (by omega)]
      congr 1
      apply UInt8.toNat_inj.mp
      rw [Nat.toUInt8_eq, Nat.toUInt8_eq, UInt8.toNat_ofNat', UInt8.toNat_ofNat',
        Nat.shiftRight_eq_div_pow, Nat.shiftRight_eq_div_pow]
      have hsplit : Nat.pow 2 (8 * width) = 2 ^ (8 * count) * 2 ^ (8 * (width - count)) := by
        rw [← Nat.pow_add]
        congr 1
        omega
      rw [hsplit, Nat.mod_mul_right_div_self]
      exact Nat.mod_mod_of_dvd _ (Nat.pow_dvd_pow 2 (by omega))
  exact hlow width (Nat.le_refl _)

/-- The bytes of a function whose name stands at a place of the pool; `tail` are its constants. -/
def functionBytes (name : Nat) (f : Function) (c : Chunk) (tail : List UInt8) : List UInt8 :=
  bigEndian 4 name ++ (bigEndian 4 f.id.toNat ++ (bigEndian 2 f.arity.toNat ++
    (bigEndian 2 f.locals.toNat ++ (bigEndian 4 c.size ++ (c.code.data.toList ++
      (bigEndian 4 c.lines.size ++ ((c.lines.toList.map fun n => bigEndian 4 n.toNat).flatten ++
        (bigEndian 4 c.constants.size ++ tail))))))))

/-- A function as it stands in the file. -/
def stored (f : Function) (c : Chunk) : Stored :=
  let constants := c.constants.map raw
  { function := { id := f.id, name := f.name, arity := f.arity, locals := f.locals
                  chunk := some { code := c.code, lines := c.lines,
                                  constants := constants.map (·.1) } }
    names := constants.toList.zipIdx.filterMap fun ((_, name), i) =>
      name.bind fun t => if t.isEmpty then none else some (i, t) }

theorem toByteArray_toList (bytes : ByteArray) : bytes.data.toList.toByteArray = bytes :=
  ByteArray.ext (by rw [List.data_toByteArray, Array.toArray_toList])

theorem foldl_append_bytes {α : Type} (g : α → List UInt8) (l : List α) (acc : ByteArray) :
    l.foldl (fun acc x => acc ++ (g x).toByteArray) acc = acc ++ (l.map g).flatten.toByteArray := by
  induction l generalizing acc with
  | nil => simp
  | cons x rest ih =>
    rw [List.foldl_cons, ih, List.map_cons, List.flatten_cons, List.toByteArray_append,
      ByteArray.append_assoc]

/-- Reading the bytes of a function. -/
theorem functionBytes_reads {strings : Array Text} {name : Nat} {f : Function} {c : Chunk}
    {pieces : List (List UInt8)} {names : Array Text} (hname : strings[name]? = some f.name)
    (hstrings : strings.size < 256 ^ 4) (hf : f.Storable names) (hc : c.Storable names)
    (hlines : ∀ n ∈ c.lines, n < 2 ^ 32) (hcount : c.constants.size ≤ pieces.flatten.length)
    (hpieces : List.Forall₂ (Reads (constant strings)) pieces (c.constants.toList.map raw))
    (hlen : (functionBytes name f c pieces.flatten).length < 256 ^ 4) :
    Reads (function strings) (functionBytes name f c pieces.flatten) (stored f c) := by
  have harity := hf.arity
  have hlocals := hf.locals
  have hcomplete := hc.lines
  have hcode : c.code.data.toList.length = c.size := Array.length_toList
  have htake : Reads (take c.size .codeSection) c.code.data.toList c.code := by
    have h := Reads.take .codeSection c.code.data.toList
    rwa [hcode, toByteArray_toList] at h
  have hline : List.Forall₂ (Reads (do return ((← number 4 : Nat) : Int)))
      (c.lines.toList.map fun n => bigEndian 4 n.toNat) c.lines.toList := by
    rw [List.forall₂_map_left_iff, List.forall₂_same]
    intro n hn
    have hmem : n ∈ c.lines := by simpa using hn
    have hlow := hc.line n hmem
    have hhigh := hlines n hmem
    refine .last (.number (n := n.toNat) (by omega)) ?_
    rw [Int.toNat_of_nonneg hlow]
    exact .pure n
  have htable := Reads.many hline #[]
  have hconstants := Reads.many hpieces #[]
  simp only [Array.length_toList, List.length_map, Array.empty_append, Array.toArray_toList,
    ← List.map_toArray] at htable hconstants
  simp only [functionBytes, List.length_append, length_bigEndian, hcode] at hlen
  refine Reads.string hname hstrings ?_
  refine .bind (.number f.id.toNat_lt) (.bind (.number (n := f.arity.toNat) (by omega)) ?_)
  refine .bind (.number (n := f.locals.toNat) (by omega))
    (.bind (.number (n := c.size) (by omega)) ?_)
  refine .bind htake (.bind (.number (n := c.lines.size) (by omega)) ?_)
  dsimp only
  rw [if_neg (by simpa using hcomplete)]
  refine .bind htable (.count_bind (by omega) hcount (.last hconstants ?_))
  rw [show f.id.toNat.toUInt32 = f.id from UInt32.ofNat_toNat, Int.toNat_of_nonneg harity.1,
    Int.toNat_of_nonneg hlocals.1]
  exact .pure _

theorem functionBytes_append (name : Nat) (f : Function) (c : Chunk) (tail : List UInt8) :
    functionBytes name f c tail = functionBytes name f c [] ++ tail := by
  simp [functionBytes]

/-- Writing a function: all but its constants, and then these. -/
theorem writeFunction_eq {names : Array Text} {f : Function} {c : Chunk} (hf : f.Storable names)
    (hchunk : f.chunk = some c) (hc : c.Storable names) (p : Pool) (acc : ByteArray) :
    writeFunction p acc f = c.constants.toList.foldlM (fun ((p, acc) : Pool × ByteArray) v => do
        let (p, bytes) ← (writeValue p v).mapError WriteFailure.format
        return (p, acc ++ bytes.toByteArray))
      ((p.add f.name).1, acc ++ (functionBytes (p.add f.name).2 f c []).toByteArray) := by
  have harity := hf.arity
  have hlocals := hf.locals
  have hlines (acc : ByteArray) : c.lines.foldl (fun (acc : ByteArray) (n : Int) =>
      acc ++ (bigEndian 4 (n % (Nat.pow 2 (8 * 4) : Nat)).toNat).toByteArray) acc =
      acc ++ (c.lines.toList.map fun n => bigEndian 4 n.toNat).flatten.toByteArray := by
    rw [← Array.foldl_toList, foldl_append_bytes]
    congr 3
    exact List.map_congr_left fun n hn => bigEndian_emod (hc.line n (by simpa using hn))
  unfold writeFunction
  rw [if_neg (by simp; omega)]
  simp only [hchunk, ← Array.foldlM_toList]
  congr 2
  rw [hlines]
  simp only [bigEndian_emod harity.1, bigEndian_emod hlocals.1,
    bigEndian_emod (Int.natCast_nonneg _),
    Int.toNat_natCast, functionBytes, List.toByteArray_append, ByteArray.append_assoc,
    toByteArray_toList, List.append_nil]

/-- A written function reads back once the pool is complete. -/
theorem writeFunction_reads {names : Array Text} {f : Function} {c : Chunk} (hf : f.Storable names)
    (hchunk : f.chunk = some c) (hc : c.Storable names)
    (hlines : ∀ n ∈ c.lines, n < 2 ^ 32) (p : Pool)
    (acc : ByteArray) :
    ∃ p' bytes, writeFunction p acc f = .ok (p', acc ++ bytes.toByteArray) ∧ p.Grows p' ∧
      0 < bytes.length ∧ ∀ q, p'.Grows q → q.strings.size < 256 ^ 4 → bytes.length < 256 ^ 4 →
        Reads (function q.strings) bytes (stored f c) := by
  obtain ⟨p', pieces, hwrite, hgrows, hcount, hreads⟩ := writeConstants_reads c.constants.toList
    (fun v hv => hc.constants v (by simpa using hv)) (p.add f.name).1
    (acc ++ (functionBytes (p.add f.name).2 f c []).toByteArray)
  refine ⟨p', functionBytes (p.add f.name).2 f c pieces.flatten, ?_, ?_, ?_,
    fun q hq hsize hlen => ?_⟩
  · rw [writeFunction_eq hf hchunk hc, hwrite, functionBytes_append _ f c pieces.flatten,
      List.toByteArray_append,
      ByteArray.append_assoc]
  · exact (p.add_grows f.name).trans hgrows
  · unfold functionBytes
    rw [List.length_append, length_bigEndian]
    omega
  · have hname := (hgrows.trans hq).get (p.add_get f.name)
    rw [Array.length_toList] at hcount
    exact functionBytes_reads hname hsize hf hc hlines hcount (hreads q hq hsize) hlen

/-- The loop that writes the functions. -/
theorem writeFunctions_reads {names : Array Text} (l : List Function)
    (hl : ∀ f ∈ l, f.Storable names)
    (hlines : ∀ f ∈ l, ∀ c, f.chunk = some c → ∀ n ∈ c.lines, n < 2 ^ 32)
    (p : Pool) (acc : ByteArray) :
    ∃ p' pieces, l.foldlM (fun ((p, acc) : Pool × ByteArray) f => writeFunction p acc f) (p, acc) =
        .ok (p', acc ++ pieces.flatten.toByteArray) ∧
      p.Grows p' ∧ l.length ≤ pieces.flatten.length ∧
      ∀ q, p'.Grows q → q.strings.size < 256 ^ 4 → pieces.flatten.length < 256 ^ 4 →
        List.Forall₂
        (Reads (function q.strings)) pieces (l.map fun f => stored f (f.chunk.getD {})) := by
  induction l generalizing p acc with
  | nil => exact ⟨p, [], by simp; rfl, .refl p, Nat.le_refl _, fun _ _ _ _ => .nil⟩
  | cons f rest ih =>
    have hf := hl f (by simp)
    obtain ⟨c, hchunk, hc⟩ := hf.chunk
    obtain ⟨p₁, bytes, hwrite, hgrows, hpos, hread⟩ :=
      writeFunction_reads hf hchunk hc (hlines f (by simp) c hchunk) p acc
    obtain ⟨p₂, pieces, hrest, hgrows', hlen, hreads⟩ :=
      ih (fun g hg => hl g (by simp [hg])) (fun g hg => hlines g (by simp [hg])) p₁
        (acc ++ bytes.toByteArray)
    refine ⟨p₂, bytes :: pieces, ?_, hgrows.trans hgrows', ?_, fun q hq hsize hsmall => ?_⟩
    · rw [List.foldlM_cons]
      dsimp only
      rw [hwrite]
      refine hrest.trans ?_
      rw [List.flatten_cons, List.toByteArray_append, ByteArray.append_assoc]
    · rw [List.flatten_cons, List.length_append, List.length_cons]
      omega
    · rw [List.flatten_cons, List.length_append] at hsmall
      rw [List.map_cons, hchunk]
      exact .cons (hread q (hgrows'.trans hq) hsize (by omega)) (hreads q hq hsize (by omega))

theorem functionsFrom_eq {strings : Array Text} {data : ByteArray} {pieces : List (List UInt8)}
    {l : List Stored} (h : List.Forall₂ (Reads (function strings)) pieces l) {place : Nat}
    (hat : At data place pieces.flatten) (acc : Array Stored) :
    functionsFrom strings data l.length place acc = .ok (acc ++ l.toArray) := by
  induction h generalizing place acc with
  | nil => simp [functionsFrom]
  | @cons bytes s pieces l hread _ ih =>
    rw [List.flatten_cons] at hat
    have hfirst : (function strings data).run place = .ok (s, place + bytes.length) :=
      hread hat.left
    rw [List.length_cons, functionsFrom, hfirst]
    dsimp only
    rw [ih hat.right]
    simp

/-! ### Linking -/

/-- The place and the name of a constant that is to be a function. -/
def named? (x : (Value × Option Text) × Nat) : Option (Nat × Text) :=
  x.1.2.bind fun t => if t.isEmpty then none else some (x.2, t)

/-- Linking puts the functions back where they were. -/
theorem link_stored {all : Array Function} {f : Function} {c : Chunk} (hchunk : f.chunk = some c)
    (hf : f.Storable (all.map (·.name))) (hc : c.Storable (all.map (·.name))) :
    (stored f c).link all = .ok f := by
  have hfold : ∀ (l before : List Value), (∀ v ∈ l, v.Storable (all.map (·.name))) →
      (((l.map raw).zipIdx before.length).filterMap named?).foldlM (linkConstant all)
        (before ++ (l.map raw).map (·.1)).toArray =
      (.ok (before ++ l).toArray : Except Error (Array Value)) := by
    intro l
    induction l with
    | nil => intro before _; simp; rfl
    | cons v rest ih =>
      intro before hl
      have hnext := ih (before ++ [v]) fun w hw => hl w (by simp [hw])
      rw [List.length_append, List.length_singleton, List.append_assoc, List.append_assoc,
        List.singleton_append, List.singleton_append] at hnext
      rw [List.map_cons, List.zipIdx_cons, List.map_cons]
      rcases raw_eq v with ⟨r, rfl⟩ | hplain
      · obtain ⟨hunit, hname, hindex⟩ := hl _ (List.mem_cons_self ..)
        rw [Array.findIdx?_map] at hindex
        change all.findIdx? (fun f => f.name == r.name) = some r.index at hindex
        have href : (⟨0, r.index, r.name⟩ : FuncRef) = r := by rw [← hunit]
        rw [List.filterMap_cons_some (b := (before.length, r.name)) (by simp [named?, raw, hname]),
          List.foldlM_cons, linkConstant]
        dsimp only
        rw [hindex]
        dsimp only
        rw [if_pos (by simp), ok_bind, href, Array.set!_eq_setIfInBounds,
          List.setIfInBounds_toArray,
          List.set_append_right _ _ (Nat.le_refl _), Nat.sub_self]
        exact hnext
      · rw [hplain, List.filterMap_cons_none rfl]
        exact hnext
  have hwhole := hfold c.constants.toList [] fun v hv => hc.constants v (by simpa using hv)
  rw [List.nil_append, List.nil_append, ← Array.toList_map, ← Array.toList_map,
    Array.toArray_toList,
    Array.toArray_toList] at hwhole
  unfold Stored.link
  dsimp only [stored, Option.getD_some]
  refine (congrArg (· >>= _) hwhole).trans ?_
  rw [ok_bind]
  have hdepth := hf.maxStack
  cases f
  subst hdepth hchunk
  rfl

theorem mapM_link {all : Array Function} (l : List Function)
    (h : ∀ f ∈ l, (stored f (f.chunk.getD {})).link all = .ok f) :
    (l.map fun f => stored f (f.chunk.getD {})).mapM (Stored.link all) = .ok l := by
  induction l with
  | nil => rfl
  | cons f rest ih =>
    rw [List.map_cons, List.mapM_cons, h f (by simp), ok_bind, ih fun g hg => h g (by simp [hg])]
    rfl

/-! ### The whole file -/

theorem length_le_flatten (pieces : List (List UInt8)) (h : ∀ bytes ∈ pieces, 0 < bytes.length) :
    pieces.length ≤ pieces.flatten.length := by
  induction pieces with
  | nil => exact Nat.le_refl _
  | cons bytes rest ih =>
    have hpos := h bytes (by simp)
    have hrest := ih fun b hb => h b (by simp [hb])
    rw [List.flatten_cons, List.length_append, List.length_cons]
    omega

/-- The bytes of a string of the pool. -/
def stringBytes (t : Text) : List UInt8 := bigEndian 4 t.size ++ t.toList

theorem length_stringBytes (t : Text) : (stringBytes t).length = 4 + t.size := by
  rw [stringBytes, List.length_append, length_bigEndian, Text.toList, Array.length_toList]
  rfl

/-- The bytes of the pool. -/
def poolBytes (strings : Array Text) : List UInt8 :=
  bigEndian 4 strings.size ++ (strings.toList.map stringBytes).flatten

theorem Pool.bytes_eq (p : Pool) : p.bytes = (poolBytes p.strings).toByteArray := by
  have hstep : (fun (acc : ByteArray) (t : Text) => acc ++
    (bigEndian 4 t.size).toByteArray ++ t.bytes) =
      fun acc t => acc ++ (stringBytes t).toByteArray := by
    funext acc t
    rw [stringBytes, List.toByteArray_append, Text.toList, toByteArray_toList,
      ByteArray.append_assoc]
  unfold Pool.bytes
  rw [hstep, ← Array.foldl_toList, foldl_append_bytes, poolBytes, List.toByteArray_append]

theorem pool_reads {strings : Array Text} (h : (poolBytes strings).length < 256 ^ 4) :
    Reads pool (poolBytes strings) strings := by
  simp only [poolBytes, List.length_append, length_bigEndian] at h
  have hitem : List.Forall₂ (Reads (do return (⟨← take (← number 4) .stringPool⟩ : Text)))
      (strings.toList.map stringBytes) strings.toList := by
    rw [List.forall₂_map_left_iff, List.forall₂_same]
    intro t ht
    have hlen := (List.sublist_flatten_of_mem (List.mem_map_of_mem (f := stringBytes) ht)).length_le
    rw [length_stringBytes] at hlen
    have htake := Reads.take .stringPool t.toList
    rw [show t.toList.length = t.size from Array.length_toList] at htake
    refine .bind (.number (by omega)) (.last htake ?_)
    rw [Text.toList, toByteArray_toList]
    exact .pure t
  have hcount := length_le_flatten (strings.toList.map stringBytes) fun bytes hbytes => by
    obtain ⟨t, -, rfl⟩ := List.mem_map.mp hbytes
    rw [length_stringBytes]
    omega
  rw [List.length_map, Array.length_toList] at hcount
  have hmany := Reads.many hitem #[]
  rw [Array.length_toList, Array.empty_append, Array.toArray_toList] at hmany
  exact .count_bind (by omega) hcount hmany

/-- The bytes of a file. -/
def fileBytes (main : Nat) (strings functions : List UInt8) : List UInt8 :=
  bigEndian 4 magic.toNat ++ ([version.1] ++ ([version.2] ++ ([0, 0] ++ (bigEndian 4 headerSize ++
    (bigEndian 4 (headerSize + strings.length) ++ (bigEndian 4 main ++ (strings ++ functions)))))))

theorem preamble_eq {main n : Nat} {strings : Array Text} {functions : List UInt8}
    {data : ByteArray}
    (hdata : data = (fileBytes main (poolBytes strings) (bigEndian 4 n ++ functions)).toByteArray)
    (hsize : data.size < 256 ^ 4) (hmain : main < 256 ^ 4) (hn : n ≤ functions.length) :
    preamble data = .ok (headerSize + (poolBytes strings).length + 4, n, main, strings) := by
  have hwhole : At data 0 (fileBytes main (poolBytes strings) (bigEndian 4 n ++ functions)) :=
    ⟨[], [], by rw [hdata, List.data_toByteArray]; simp, rfl⟩
  have hle := hwhole.le
  simp only [fileBytes, List.length_append, length_bigEndian, List.length_cons, List.length_nil,
    headerSize] at hle hsize
  -- The sections of the file, each behind the one before.
  have hmajor := hwhole.right
  have hminor := hmajor.right
  have hflags := hminor.right
  have hstrings := hflags.right
  have hfunctions := hstrings.right
  have hmainAt := hfunctions.right
  have hpool := hmainAt.right
  have hcount := hpool.right
  have smagic := hwhole.left.slice
  have smajor := hmajor.left.slice
  have sstrings := hstrings.left.slice
  have sfunctions := hfunctions.left.slice
  have smain := hmainAt.left.slice
  simp only [length_bigEndian, List.length_cons, List.length_nil, Nat.zero_add, Nat.reduceAdd]
    at smagic smajor sstrings sfunctions smain hpool hcount
  have hheader : checkHeader data = .ok () := by
    unfold checkHeader
    rw [if_neg (by unfold headerSize; omega), smagic, smajor, ok_bind, value_bigEndian (by decide)]
    rfl
  have hread : pool data headerSize = .ok (strings, headerSize + (poolBytes strings).length) :=
    pool_reads (by omega) hpool.left
  have hnumber : count .functionTable data (headerSize + (poolBytes strings).length) =
      .ok (n, headerSize + (poolBytes strings).length + 4) := by
    have h : number 4 data (headerSize + (poolBytes strings).length) = .ok (n, _) :=
      Reads.number (by omega) hcount.left
    rw [count_apply, h, ok_bind, length_bigEndian]
    exact if_neg (by omega)
  have hplaces : headerSize < 256 ^ 4 ∧ headerSize + (poolBytes strings).length < 256 ^ 4 := by
    unfold headerSize
    omega
  unfold preamble
  rw [hheader, ok_bind, sstrings, sfunctions, smain, ok_bind, ok_bind, ok_bind,
    value_bigEndian hmain,
    value_bigEndian hplaces.1, value_bigEndian hplaces.2]
  dsimp only
  rw [if_neg (by unfold headerSize; simp; omega)]
  refine (congrArg (· >>= _) hread).trans ?_
  rw [ok_bind]
  refine (congrArg (· >>= _) hnumber).trans ?_
  rfl

/-- Writing a storable program. -/
theorem write_eq {p : Program} {main : Nat} (hp : p.Storable) (hmain : p.main = .listed main)
    (hlines : p.Numbered) :
    ∃ (pool : Pool) (pieces : List (List UInt8)), write p =
      .ok (fileBytes main (poolBytes pool.strings)
        (bigEndian 4 p.functions.size ++ pieces.flatten)).toByteArray ∧
      p.functions.size ≤ pieces.flatten.length ∧
      (pool.strings.size < 256 ^ 4 → pieces.flatten.length < 256 ^ 4 →
        List.Forall₂ (Reads (function pool.strings)) pieces
          (p.functions.toList.map fun f => stored f (f.chunk.getD {}))) := by
  obtain ⟨pool, pieces, hwrite, -, hlen, hreads⟩ := writeFunctions_reads p.functions.toList
    (fun f hf => hp.functions f (by simpa using hf)) (fun f hf => hlines f (by simpa using hf)) {}
    (bigEndian 4 p.functions.size).toByteArray
  refine ⟨pool, pieces, ?_, by simpa using hlen, hreads pool (.refl pool)⟩
  rw [Array.foldlM_toList] at hwrite
  unfold write
  rw [hmain]
  show (p.functions.foldlM (fun ((p, acc) : Pool × ByteArray) f => writeFunction p acc f)
    ({}, (bigEndian 4 p.functions.size).toByteArray) >>= _) = _
  rw [hwrite, ok_bind]
  show Except.ok _ = Except.ok _
  have hversion : [version.1, version.2, 0, 0] = [version.1] ++ ([version.2] ++ [0, 0]) := rfl
  rw [pool.bytes_eq, hversion]
  simp only [fileBytes, List.toByteArray_append, ByteArray.append_assoc, List.size_toByteArray]

/-- A storable program can be written, and its file holds it. -/
theorem parse_write {p : Program} (hp : p.Storable)
    (hlines : p.Numbered) :
    ∃ bytes, write p = .ok bytes ∧ (bytes.size < 2 ^ 32 → parse bytes = .ok p) := by
  obtain ⟨main, hmain, hlt⟩ := hp.main
  obtain ⟨pool, pieces, hwrite, hcount, hreads⟩ := write_eq hp hmain hlines
  refine ⟨_, hwrite, fun hsize => ?_⟩
  generalize hdata : (fileBytes main (poolBytes pool.strings)
    (bigEndian 4 p.functions.size ++ pieces.flatten)).toByteArray = data at hsize ⊢
  have hlen : data.size = (fileBytes main (poolBytes pool.strings)
      (bigEndian 4 p.functions.size ++ pieces.flatten)).length := by
    rw [← hdata, List.size_toByteArray]
  have hbytes := hlen
  simp only [fileBytes, poolBytes, List.length_append, length_bigEndian, List.length_cons,
    List.length_nil] at hlen
  have hpool := length_le_flatten (pool.strings.toList.map stringBytes) fun bytes hmem => by
    obtain ⟨t, -, rfl⟩ := List.mem_map.mp hmem
    rw [length_stringBytes]
    omega
  rw [List.length_map, Array.length_toList] at hpool
  have hpreamble := preamble_eq hdata.symm (by omega) (by omega) hcount
  have hstored := hreads (by omega) (by omega)
  have hat : At data (headerSize + (poolBytes pool.strings).length + 4) pieces.flatten := by
    have hwhole : At data 0 (fileBytes main (poolBytes pool.strings)
        (bigEndian 4 p.functions.size ++ pieces.flatten)) :=
      ⟨[], [], by rw [← hdata, List.data_toByteArray]; simp, rfl⟩
    exact hwhole.right.right.right.right.right.right.right.right.right
  have hfunctions := functionsFrom_eq hstored hat #[]
  rw [List.length_map, Array.length_toList, Array.empty_append] at hfunctions
  unfold parse
  rw [hpreamble]
  show (functionsFrom pool.strings data p.functions.size
    (headerSize + (poolBytes pool.strings).length + 4) #[] >>= _) = _
  rw [hfunctions, ok_bind]
  dsimp only
  rw [if_neg (by simpa using hlt)]
  have hnames : ((p.functions.toList.map fun f => stored f (f.chunk.getD {})).toArray.map
      (·.function)).map (·.name) = p.names := by
    apply Array.toList_inj.mp
    simp [Program.names, stored]
  generalize (p.functions.toList.map fun f => stored f (f.chunk.getD {})).toArray.map (·.function) =
    all
    at hnames
  have hlink := mapM_link p.functions.toList fun f hf => by
    have hstorable := hp.functions f (by simpa using hf)
    obtain ⟨c, hchunk, hc⟩ := hstorable.chunk
    rw [← hnames] at hstorable hc
    rw [hchunk]
    exact link_stored hchunk hstorable hc
  rw [Array.mapM_eq_mapM_toList, hlink]
  show Except.ok _ = Except.ok p
  rw [← hmain]

/-! ### Verified programs -/

/-- Depths are not written. -/
theorem write_verify (p : Program) : write p.verify.1 = write p := by
  have hstep : ∀ (x : Pool × ByteArray) (f : Function),
      writeFunction x.1 x.2 f.verify.1 = writeFunction x.1 x.2 f := by
    intro x f
    obtain ⟨m, hm⟩ := f.verify_fst
    rw [hm]
    rfl
  unfold write
  simp only [Program.verify, Array.map_map, Array.size_map, Array.foldlM_map,
    Function.comp_apply, hstep]

/-- The file of an accepted program reads back as the program, depths and all. -/
theorem read_write_storable {p : Program} (hp : p.Storable) (haccept : p.verify.2 = [])
    (hlines : p.Numbered) :
    ∃ bytes, write p.verify.1 = .ok bytes ∧
    (bytes.size < 2 ^ 32 → read bytes = .ok p.verify.1) := by
  obtain ⟨bytes, hwrite, hparse⟩ := parse_write hp hlines
  refine ⟨bytes, by rw [write_verify, hwrite], fun hsize => ?_⟩
  unfold read
  rw [hparse hsize, ok_bind]
  simp [haccept]
  rfl

/-- A loaded program is an accepted storable one. -/
theorem storable_of_loaded {p : Program}
    (h : (∃ file text, assemble file text = .ok p) ∨ ∃ data, read data = .ok p) :
    ∃ q : Program, q.Storable ∧ q.verify = (p, []) := by
  have accepted {ε : Type} {q : Program} {e : ε}
      (hq : (if q.verify.2.isEmpty then Except.ok q.verify.1 else Except.error e) = .ok p) :
      q.verify = (p, []) := by
    split at hq
    · next hnil => rw [← List.isEmpty_iff.mp hnil, ← Except.ok.inj hq]
    · cases hq
  rcases h with ⟨file, text, h⟩ | ⟨data, h⟩
  · obtain ⟨q, hparse, hq⟩ := answer_eq_ok h
    have hanswer : Answers (fun _ => True) ((Source.parse text).mapError (LoadError.source file))
        Program.Storable := (Source.parse_answers text).mapError fun _ _ => trivial
    rw [hparse] at hanswer
    exact ⟨q, hanswer, accepted hq⟩
  · obtain ⟨q, hparse, hq⟩ := answer_eq_ok h
    have hanswer := parse_answers data
    rw [hparse] at hanswer
    exact ⟨q, hanswer, accepted hq⟩

/-- Every loaded program can be written, and reading the file gives the same program: functions in
order with their ids, names, sizes, depths, code and lines, the same main function, and constants
that are equal place by place. A file below four gigabytes has room for every length in it. -/
theorem read_write {p : Program}
    (hp : (∃ file text, assemble file text = .ok p) ∨ ∃ data, read data = .ok p)
    (hlines : p.Numbered) :
    ∃ bytes, write p = .ok bytes ∧ (bytes.size < 2 ^ 32 → read bytes = .ok p) := by
  obtain ⟨q, hq, hverify⟩ := storable_of_loaded hp
  have hp : q.verify.1 = p := by rw [hverify]
  have haccept : q.verify.2 = [] := by rw [hverify]
  have hread := read_write_storable hq haccept (by rwa [← q.numbered_verify, hp])
  rwa [hp] at hread

/-- A program that prints what its second function answers. -/
def greeting : Program where
  functions := #[
    { id := 1, name := "main", arity := 0, locals := 0
      chunk := some { 
        code := ⟨#[0, 0, 0, 32, 0, 34, 35]⟩, lines := #[2, 2, 2, 3, 3, 4, 5]
        constants := #[.func (some ⟨0, 1, "word"⟩)] } },
    { id := 2, name := "word", arity := 0, locals := 1
      chunk := some { code := ⟨#[0, 0, 0, 33]⟩, lines := #[7, 7, 7, 8],
                      constants := #[.str "word"] } }]
  main := .listed 0

theorem greeting_storable : greeting.Storable := by
  have hword : (Value.func (some ⟨0, 1, "word"⟩)).Storable greeting.names :=
    ⟨rfl, by decide +kernel, by decide +kernel⟩
  refine ⟨⟨0, rfl, by decide⟩, fun f hf => ?_⟩
  rcases List.mem_cons.mp (Array.mem_toList_iff.mpr hf) with rfl | hf
  · refine ⟨by decide, by decide, rfl, _, rfl, rfl, by decide, fun v hv => ?_⟩
    obtain rfl : v = _ := by simpa using hv
    exact hword
  · obtain rfl : f = _ := List.mem_singleton.mp hf
    refine ⟨by decide, by decide, rfl, _, rfl, rfl, by decide, fun v hv => ?_⟩
    obtain rfl : v = _ := by simpa using hv
    trivial

theorem greeting_numbered : greeting.Numbered := by
  intro f hf c hc
  rcases List.mem_cons.mp (Array.mem_toList_iff.mpr hf) with rfl | hf
  · obtain rfl := Option.some.inj hc
    decide
  · obtain rfl : f = _ := List.mem_singleton.mp hf
    obtain rfl := Option.some.inj hc
    decide

/-- The greeting is loaded from a file, written, and loaded once more. -/
theorem greeting_round_trip :
    ∃ file bytes, read file = .ok greeting.verify.1 ∧ write greeting.verify.1 = .ok bytes ∧
      bytes.size = 157 ∧ read bytes = .ok greeting.verify.1 := by
  have haccept : greeting.verify.2 = [] := by decide +kernel
  have hsize : (write greeting.verify.1).toOption.map ByteArray.size = some 157 := by decide +kernel
  have hwritten {bytes : ByteArray} (h : write greeting.verify.1 = .ok bytes) : bytes.size =
      157 := by
    rw [h] at hsize
    exact Option.some.inj hsize
  obtain ⟨file, hfile, hload⟩ := read_write_storable greeting_storable haccept greeting_numbered
  have hloaded := hload (by rw [hwritten hfile]; decide)
  obtain ⟨bytes, hbytes, hread⟩ :=
    read_write (.inr ⟨file, hloaded⟩) (greeting.numbered_verify.mpr greeting_numbered)
  exact ⟨file, bytes, hloaded, hbytes, hwritten hbytes, hread (by rw [hwritten hbytes]; decide)⟩

end Image

end LoopTracer.Bytecode
