import LoopTracer.Proofs.Image.Reading

/-! Programs that have a compiled form.

`Program.Storable` says what a file can hold: the program starts with one of its functions, every
function has code, numbers that fit their fields and a line for each code byte, and a function
constant refers to the first function of its name. Whatever the bytes of a file are, reading them
gives a storable program or an error, without a stray access (`parse_answers`). -/
namespace LoopTracer.Bytecode

/-- A constant that a file can hold, among functions of these names. -/
def Value.Storable (names : Array Text) : Value → Prop
  | .func (some r) =>
    r.unit = 0 ∧ r.name.isEmpty = false ∧ names.findIdx? (· == r.name) = some r.index
  | .func none | .reserved _ => False
  | _ => True

structure Chunk.Storable (names : Array Text) (c : Chunk) : Prop where
  lines : c.lines.size = c.size
  line : ∀ n ∈ c.lines, 0 ≤ n
  constants : ∀ v ∈ c.constants, v.Storable names

/-- A function that a file can hold; its depth is not stored. -/
structure Function.Storable (names : Array Text) (f : Function) : Prop where
  arity : 0 ≤ f.arity ∧ f.arity ≤ 65535
  locals : 0 ≤ f.locals ∧ f.locals ≤ 65535
  maxStack : f.maxStack = 0
  chunk : ∃ c, f.chunk = some c ∧ c.Storable names

/-- A storable constant may take the place of another. -/
theorem Function.Storable.setConstant {names : Array Text} {f : Function}
    (h : f.Storable names) (i : Nat)
    {v : Value} (hv : v.Storable names) :
    Function.Storable names { f with chunk := f.chunk.map fun c =>
      { c with constants := c.constants.set! i v } } := by
  obtain ⟨c, hchunk, hc⟩ := h.chunk
  refine ⟨h.arity, h.locals, h.maxStack, { c with constants := c.constants.set! i v }, ?_, hc.lines,
    hc.line, fun w hw => ?_⟩
  · rw [hchunk]
    rfl
  · rw [Array.set!_eq_setIfInBounds] at hw
    rcases Array.mem_or_eq_of_mem_setIfInBounds hw with hw | rfl
    · exact hc.constants w hw
    · exact hv

/-- The names of a program's functions, in order. -/
def Program.names (p : Program) : Array Text := p.functions.map (·.name)

structure Program.Storable (p : Program) : Prop where
  main : ∃ i, p.main = .listed i ∧ i < p.functions.size
  functions : ∀ f ∈ p.functions, f.Storable p.names

namespace Image

/-- A constant before its function is known. -/
def Plain : Value → Prop
  | .func _ | .reserved _ => False
  | _ => True

theorem Plain.storable {v : Value} (h : Plain v) (names : Array Text) : v.Storable names := by
  cases v <;> trivial

/-- A function as it stands in a file, its function constants being null. -/
structure Stored.Formed (s : Stored) : Prop where
  arity : 0 ≤ s.function.arity ∧ s.function.arity ≤ 65535
  locals : 0 ≤ s.function.locals ∧ s.function.locals ≤ 65535
  maxStack : s.function.maxStack = 0
  chunk : ∃ c, s.function.chunk = some c ∧ c.lines.size = c.size ∧ (∀ n ∈ c.lines, 0 ≤ n) ∧
    (∀ v ∈ c.constants, Plain v) ∧ ∀ x ∈ s.names, x.1 < c.constants.size ∧ x.2.isEmpty = false

/-- A failure that is no stray access. -/
def Failure.Sober : Failure → Prop
  | malformed e | function _ e => Image.Sober e
  | refused _ => True

/-! ### Reading a function -/

theorem constant_gives (pool : Array Text) : Gives (constant pool) fun x => Plain x.1 := by
  refine .bind (number_gives 1) fun tag _ => ?_
  split
  · exact .pure trivial
  · exact .bind (number_gives 1) fun _ _ => .pure trivial
  · refine .bind (number_gives 8) fun n _ => ?_
    dsimp only
    split
    · exact .bind (.throw (P := fun _ => False) fun _ => nofun) fun _ h => h.elim
    · exact .pure trivial
  · exact .bind (number_gives 8) fun _ _ => .pure trivial
  · exact .bind (number_gives 4) fun _ _ => .bind (stringAt_gives pool _) fun _ _ => .pure trivial
  · exact .bind (number_gives 4) fun _ _ => .bind (stringAt_gives pool _) fun _ _ => .pure trivial
  · exact .throw fun _ => nofun

/-- The places of function constants are places of constants. -/
theorem mem_names {constants : Array (Value × Option Text)} {x : Nat × Text}
    (hx : x ∈ constants.toList.zipIdx.filterMap fun ((_, name), i) =>
      name.bind fun t => if t.isEmpty then none else some (i, t)) :
    x.1 < constants.size ∧ x.2.isEmpty = false := by
  obtain ⟨⟨⟨v, name⟩, i⟩, hmem, hname⟩ := List.mem_filterMap.mp hx
  obtain ⟨t, -, ht⟩ := Option.bind_eq_some_iff.mp hname
  have hi := List.mem_zipIdx hmem
  split at ht
  · cases ht
  · next hne =>
    obtain rfl := Option.some.inj ht
    simp only [Array.length_toList] at hi
    exact ⟨by simpa using hi.2.1, by simpa using hne⟩

theorem function_gives (pool : Array Text) : Gives (function pool) Stored.Formed := by
  refine .bind (number_gives 4) fun _ _ => .bind (stringAt_gives pool _) fun name _ => ?_
  refine .bind (number_gives 4) fun id _ => .bind (number_gives 2) fun arity harity => ?_
  refine .bind (number_gives 2) fun locals hlocals => .bind (number_gives 4) fun size _ => ?_
  refine .bind (take_gives size fun _ => nofun) fun code hcode => ?_
  refine .bind (number_gives 4) fun lines _ => ?_
  dsimp only
  by_cases hlines : lines = size
  · subst hlines
    rw [if_neg (by simp)]
    refine .bind (many_gives (P := fun n => 0 ≤ n) ?_ lines #[] nofun) fun table htable => ?_
    · exact .bind (number_gives 4) fun n _ => .pure (Int.natCast_nonneg n)
    refine .bind (count_gives fun _ => nofun) fun n _ => ?_
    refine .bind (many_gives (constant_gives pool) n #[] nofun) fun constants hconstants => ?_
    refine .pure ⟨?_, ?_, rfl, _, rfl, ?_, htable.2, ?_, fun x hx => ?_⟩
    · change arity < 65536 at harity
      dsimp only
      omega
    · change locals < 65536 at hlocals
      dsimp only
      omega
    · show table.size = code.size
      rw [htable.1, hcode]
      exact Nat.zero_add _
    · intro v hv
      obtain ⟨x, hx, rfl⟩ := Array.mem_map.mp hv
      exact hconstants.2 x hx
    · simpa using mem_names hx
  · rw [if_pos (by simpa using hlines)]
    exact .bind (.throw (P := fun _ => False) fun _ => nofun) fun _ h => h.elim

/-- The functions come out as many as asked for. -/
theorem functionsFrom_answers (pool : Array Text) (data : ByteArray) (n place : Nat)
    (acc : Array Stored) (hacc : ∀ s ∈ acc, s.Formed) :
    Answers Failure.Sober (functionsFrom pool data n place acc) fun out => ∀ s ∈ out, s.Formed := by
  induction n generalizing place acc with
  | zero => exact hacc
  | succ n ih =>
    unfold functionsFrom
    have hread := function_gives pool data place
    change Answers Sober ((function pool data).run place) _ at hread
    cases hx : (function pool data).run place with
    | error e =>
      rw [hx] at hread
      exact hread
    | ok x =>
      rw [hx] at hread
      refine ih x.2 (acc.push x.1) fun s hs => ?_
      rcases Array.mem_push.mp hs with hs | rfl
      · exact hacc s hs
      · exact hread

/-! ### Linking -/

/-- A constant that is to be a function becomes a reference to the first function of its name. -/
def linkConstant (all : Array Function) (constants : Array Value) (x : Nat × Text) :
    Except Error (Array Value) :=
  match all.findIdx? (·.name == x.2) with
  | none => .error (.undefinedFunction x.2)
  | some j =>
    if x.1 < constants.size then .ok (constants.set! x.1 (.func (some ⟨0, j, x.2⟩)))
    else .error (.fault .bounds)

/-- Linking replaces constants by references to the first function of a name. -/
theorem Stored.Formed.link_answers {s : Stored} (h : s.Formed) (all : Array Function) :
    Answers Sober (s.link all) fun f =>
      f.name = s.function.name ∧ f.Storable (all.map (·.name)) := by
  obtain ⟨c, hc, hlines, hline, hconstants, hnames⟩ := h.chunk
  have hfold : Answers Sober (s.names.foldlM (linkConstant all) c.constants)
      fun constants => constants.size = c.constants.size ∧
        ∀ v ∈ constants, v.Storable (all.map (·.name)) := by
    refine Answers.foldlM ⟨rfl, fun v hv => (hconstants v hv).storable _⟩ ?_
    rintro ⟨i, name⟩ hmem constants ⟨hsize, hall⟩
    obtain ⟨hi, hname⟩ := hnames _ hmem
    unfold linkConstant
    cases hj : all.findIdx? (·.name == name) with
    | none => exact fun _ h => by cases h
    | some j =>
      dsimp only at hi ⊢
      rw [if_pos (by omega)]
      refine ⟨by simpa using hsize, fun v hv => ?_⟩
      rw [Array.set!_eq_setIfInBounds] at hv
      rcases Array.mem_or_eq_of_mem_setIfInBounds hv with hv | rfl
      · exact hall v hv
      · exact ⟨rfl, hname, by rw [Array.findIdx?_map]; exact hj⟩
  unfold Stored.link
  rw [hc]
  refine hfold.bind fun constants hout => ?_
  exact ⟨rfl, h.arity, h.locals, h.maxStack, _, rfl, hlines, hline, hout.2⟩

/-! ### The whole file -/

theorem checkHeader_answers (data : ByteArray) :
    Answers Sober (checkHeader data) fun _ => headerSize ≤ data.size := by
  unfold checkHeader
  by_cases hsize : data.size < headerSize
  · rw [if_pos hsize]
    exact fun _ => nofun
  · rw [if_neg hsize]
    have hle : headerSize ≤ data.size := Nat.le_of_not_lt hsize
    have h20 : 20 ≤ data.size := hle
    rw [slice_of_le (by omega), ok_bind, slice_of_le (by omega)]
    dsimp only
    split
    · exact fun _ => nofun
    · rw [ok_bind]
      split
      · rw [slice_of_le (by omega)]
        exact fun _ => nofun
      · exact hle

theorem preamble_answers (data : ByteArray) : Answers Sober (preamble data) fun _ => True := by
  refine (checkHeader_answers data).bind fun _ hsize => ?_
  have h20 : 20 ≤ data.size := hsize
  rw [slice_of_le (by omega), slice_of_le (by omega), slice_of_le (by omega),
    ok_bind, ok_bind, ok_bind]
  dsimp only
  split
  · exact fun _ => nofun
  · refine (pool_gives data _).bind fun _ _ => ?_
    have hcount : Sober .functionTable := fun _ => nofun
    exact (count_gives hcount data _).bind fun _ _ => trivial

/-- A file holds a storable program, or reading it is an error. -/
theorem parse_answers (data : ByteArray) : Answers Failure.Sober (parse data) Program.Storable := by
  refine Answers.bind (P := fun _ => True) ((preamble_answers data).mapError fun _ => id)
    fun (place, n, main, pool) _ => ?_
  refine (functionsFrom_answers pool data n place #[] nofun).bind fun stored hstored => ?_
  dsimp only
  by_cases hmain : stored.size ≤ main
  · rw [if_pos hmain]
    exact fun _ => nofun
  · rw [if_neg hmain]
    have hlink := Answers.mapM fun s hs => (hstored s hs).link_answers (stored.map (·.function))
    refine Answers.bind (hlink.mapError fun _ => id) fun functions hfunctions => ?_
    have hsize : stored.size = functions.size := hfunctions.length_eq
    have hnames : functions.map (·.name) = (stored.map (·.function)).map (·.name) := by
      apply Array.toList_inj.mp
      rw [Array.map_map, Array.toList_map, Array.toList_map]
      generalize stored.toList = l, functions.toList = l' at hfunctions
      induction hfunctions with
      | nil => rfl
      | cons hhead _ ih => rw [List.map_cons, List.map_cons, ih, hhead.1]; rfl
    refine ⟨⟨main, rfl, ?_⟩, fun f hf => ?_⟩
    · dsimp only
      omega
    · rw [Program.names, hnames]
      obtain ⟨i, hi, rfl⟩ := Array.mem_iff_getElem.mp hf
      have hstored : i < stored.toList.length := by
        rw [Array.length_toList]
        exact Nat.lt_of_lt_of_eq hi hsize.symm
      exact ((List.forall₂_iff_get.mp hfunctions).2 i hstored hi).2

end Image

end LoopTracer.Bytecode
