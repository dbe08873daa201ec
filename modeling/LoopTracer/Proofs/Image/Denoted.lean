import LoopTracer.Proofs.Image.Contents

/-! What a file denotes.

Reading a file gives what its contents denote, function by function and constant by constant: a tag
and a payload say which constant it is (`Record.Denotes`), and a function constant is named by a
string of the pool. The main statement is `contents_denoted`; the one thing a file can spell that is
not read as what it denotes is a function constant whose name is empty, which is read as null. -/
namespace LoopTracer.Bytecode.Image

/-! ### What was read stands there -/

/-- What a reader reads stands where it has read it, in bytes that spell it as `S` says. -/
def Spells {α : Type} (r : Read α) (S : List UInt8 → α → Prop) : Prop :=
  ∀ ⦃data place a place'⦄, place ≤ data.size → r data place = .ok (a, place') →
    ∃ bytes, At data place bytes ∧ place' = place + bytes.length ∧ S bytes a

theorem le_foldl_shiftIn (l : List UInt8) (n : Nat) : n * 256 ^ l.length ≤ l.foldl shiftIn n := by
  induction l generalizing n with
  | nil => simp
  | cons b l ih =>
    calc n * 256 ^ (l.length + 1) = n * 256 * 256 ^ l.length := by rw [Nat.pow_succ', Nat.mul_assoc]
      _ ≤ shiftIn n b * 256 ^ l.length := Nat.mul_le_mul_right _ (Nat.le_add_right _ _)
      _ ≤ _ := ih _

/-- Bytes are those of the number they stand for. -/
theorem bigEndian_foldl (l : List UInt8) (n : Nat) :
    bigEndian l.length (l.foldl shiftIn n) = l := by
  induction l generalizing n with
  | nil => rfl
  | cons b l ih =>
    have hlow := le_foldl_shiftIn l (shiftIn n b)
    have hhigh := foldl_shiftIn_lt l (shiftIn n b)
    have hdiv : l.foldl shiftIn (shiftIn n b) / 256 ^ l.length = shiftIn n b :=
      Nat.div_eq_of_lt_le hlow hhigh
    rw [List.length_cons, bigEndian_succ, List.foldl_cons, ih, Nat.shiftRight_eq_div_pow,
      show 2 ^ (8 * l.length) = 256 ^ l.length by rw [Nat.pow_mul], hdiv]
    congr 1
    apply UInt8.toNat_inj.mp
    have := b.toNat_lt
    rw [Nat.toUInt8_eq, UInt8.toNat_ofNat', shiftIn]
    omega

/-- A part of a file stands in its place. -/
theorem at_extract {data : ByteArray} {place n : Nat} (h : place + n ≤ data.size) :
    At data place (data.extract place (place + n)).data.toList ∧
      (data.extract place (place + n)).data.toList.length = n := by
  have hlist : data.data.toList.length = data.size := Array.length_toList
  rw [ByteArray.data_extract, Array.toList_extract, List.extract_eq_take_drop]
  refine ⟨⟨data.data.toList.take place, (data.data.toList.drop place).drop n, ?_, ?_⟩, ?_⟩
  · rw [Nat.add_sub_cancel_left, List.append_assoc, List.take_append_drop, List.take_append_drop]
  · rw [List.length_take]
    omega
  · rw [Nat.add_sub_cancel_left, List.length_take, List.length_drop]
    omega

namespace Spells

variable {α β : Type} {r : Read α} {k : α → Read β} {S S' : List UInt8 → α → Prop}
  {T : List UInt8 → β → Prop}

theorem pure {a : α} (h : S [] a) : Spells (pure a) S := by
  intro data place b place' hle hread
  rw [pure_apply] at hread
  cases hread
  exact ⟨[], .of_le hle, rfl, h⟩

theorem throw {e : Error} : Spells (throw e) S := nofun

/-- What the second part reads stands behind what the first one has read. -/
theorem bind (hr : Spells r S)
    (hk : ∀ a bytes, S bytes a → Spells (k a) fun more b => T (bytes ++ more) b) :
    Spells (r >>= k) T := by
  intro data place b place' hle hread
  rw [bind_apply] at hread
  obtain ⟨⟨a, place₁⟩, hfirst, hrest⟩ := answer_eq_ok hread
  obtain ⟨bytes, hat, rfl, ha⟩ := hr hle hfirst
  obtain ⟨more, hat', rfl, hb⟩ := hk a bytes ha hat.le hrest
  exact ⟨bytes ++ more, hat.append hat', by rw [List.length_append, Nat.add_assoc], hb⟩

theorem mono (hr : Spells r S) (h : ∀ bytes a, S bytes a → S' bytes a) : Spells r S' := by
  intro data place a place' hle hread
  obtain ⟨bytes, hat, hplace, ha⟩ := hr hle hread
  exact ⟨bytes, hat, hplace, h bytes a ha⟩

theorem number (n : Nat) : Spells (number n) fun bytes v =>
    v < 256 ^ n ∧ bytes = bigEndian n v := by
  intro data place v place' hle hread
  rw [number_apply] at hread
  split at hread
  · cases hread
  · cases hread
    obtain ⟨hat, hlength⟩ := at_extract (show place + n ≤ data.size by omega)
    refine ⟨_, hat, by rw [hlength], ?_⟩
    have hback := bigEndian_foldl (data.extract place (place + n)).data.toList 0
    have hlt := foldl_shiftIn_lt (data.extract place (place + n)).data.toList 0
    rw [hlength] at hback hlt
    rw [value_eq]
    exact ⟨by omega, hback.symm⟩

theorem take (n : Nat) (e : Error) :
    Spells (take n e) fun bytes b => bytes.length = n ∧ b = bytes.toByteArray := by
  intro data place b place' hle hread
  rw [take_apply] at hread
  split at hread
  · cases hread
  · cases hread
    obtain ⟨hat, hlength⟩ := at_extract (show place + n ≤ data.size by omega)
    exact ⟨_, hat, by rw [hlength], hlength, (toByteArray_toList _).symm⟩

theorem count (e : Error) : Spells (count e) fun bytes v =>
    v < 256 ^ 4 ∧ bytes = bigEndian 4 v := by
  intro data place v place' hle hread
  rw [count_apply] at hread
  obtain ⟨⟨w, place₁⟩, hfirst, hrest⟩ := answer_eq_ok hread
  dsimp only at hrest
  split at hrest
  · cases hrest
  · cases hrest
    exact number 4 hle hfirst

theorem stringAt (pool : Array Text) (i : Nat) :
    Spells (stringAt pool i) fun bytes t => bytes = [] ∧ pool[i]? = some t := by
  unfold Image.stringAt
  cases h : pool[i]? with
  | none => exact .throw
  | some t => exact .pure ⟨rfl, rfl⟩

/-- Items in a row, each spelled as `f` spells it. -/
theorem many {γ : Type} {f : γ → List UInt8} {G : γ → α → Prop}
    (h : Spells r fun bytes a => ∃ x, bytes = f x ∧ G x a) (n : Nat) (acc : Array α) :
    Spells (many r n acc) fun bytes out => ∃ (xs : List γ) (l : List α), xs.length = n ∧
      bytes = (xs.map f).flatten ∧ List.Forall₂ G xs l ∧ out = acc ++ l.toArray := by
  induction n generalizing acc with
  | zero => exact .pure ⟨[], [], rfl, rfl, .nil, by simp⟩
  | succ n ih =>
    refine .bind h fun a bytes ⟨x, hbytes, hx⟩ => (ih (acc.push a)).mono fun more out hout => ?_
    obtain ⟨xs, l, hlength, rfl, hl, rfl⟩ := hout
    exact ⟨x :: xs, a :: l, by simp [hlength], by simp [hbytes], .cons hx hl, by simp⟩

end Spells

/-! ### Constants -/

namespace Record

/-- The constant that a record stands for, in a file with these strings whose functions have these
names. -/
def Denotes (strings : List Text) (names : Array Text) : Record → Value → Prop
  | .null, v => v = .null
  | .bool b, v => v = .bool (b != 0)
  | .int n, v => ∃ k : Int32, k.toInt = n.toInt64.toInt ∧ v = .int k
  | .float bits, v => v = .float ⟨bits⟩
  | .string place, v => ∃ t, strings[place.toNat]? = some t ∧ v = .str t
  | .function place, v => ∃ t i, strings[place.toNat]? = some t ∧ names.findIdx? (· == t) = some i ∧
      v = .func (some ⟨0, i, t⟩)

/-- A function constant whose function has the empty name. -/
def Nameless (strings : List Text) : Record → Prop
  | .function place => ∃ t, strings[place.toNat]? = some t ∧ t.isEmpty = true
  | _ => False

/-- What is read of a record before the functions are known. -/
def Gives (strings : Array Text) : Record → Value × Option Text → Prop
  | .function place, x => ∃ t, strings[place.toNat]? = some t ∧ x = (.null, some t)
  | r, x => r.Denotes strings.toList #[] x.1 ∧ x.2 = none

end Record

theorem constant_spells (strings : Array Text) :
    Spells (constant strings) fun bytes x => ∃ r : Record, bytes = r.bytes ∧ r.Gives strings x := by
  refine .bind (.number 1) fun tag bytes h => ?_
  obtain ⟨htag, hbytes⟩ := h
  have hone : ∀ b : UInt8, bigEndian 1 b.toNat = [b] := fun b => by simp [bigEndian]
  subst hbytes
  split
  · exact .pure ⟨.null, rfl, rfl, rfl⟩
  · refine .bind (.number 1) fun n bytes h => .pure ?_
    obtain ⟨hn, hbytes⟩ := h
    obtain ⟨b, rfl⟩ : ∃ b : UInt8, b.toNat = n := ⟨n.toUInt8, by simp; omega⟩
    refine ⟨.bool b, by rw [hbytes, hone]; rfl, ?_, rfl⟩
    have hzero : (b.toNat != 0) = (b != 0) := by
      by_cases hb : b = 0
      · subst hb
        rfl
      · rw [bne_iff_ne.mpr hb, bne_iff_ne.mpr fun h : b.toNat = 0 => hb (UInt8.toNat.inj h)]
    show Value.bool (b.toNat != 0) = .bool (b != 0)
    rw [hzero]
  · refine .bind (.number 8) fun n bytes h => ?_
    obtain ⟨hn, hbytes⟩ := h
    dsimp only
    split
    · exact .bind (.throw (S := fun _ _ => False)) fun _ _ h => h.elim
    · next hrange =>
      obtain ⟨m, rfl⟩ : ∃ m : UInt64, m.toNat = n := ⟨n.toUInt64, UInt64.toNat_ofNat_of_lt' hn⟩
      rw [show Int64.ofNat m.toNat =
        m.toInt64 by rw [← UInt64.toInt64_ofNat', UInt64.ofNat_toNat]] at hrange ⊢
      simp only [Bool.or_eq_true, decide_eq_true_eq, not_or, Int.not_lt] at hrange
      exact .pure ⟨.int m, by rw [hbytes]; rfl,
        ⟨_, Int32.toInt_ofInt_of_le (by omega) (by omega), rfl⟩, rfl⟩
  · refine .bind (.number 8) fun n bytes h => .pure ?_
    obtain ⟨hn, hbytes⟩ := h
    obtain ⟨m, rfl⟩ : ∃ m : UInt64, m.toNat = n := ⟨n.toUInt64, UInt64.toNat_ofNat_of_lt' hn⟩
    exact ⟨.float m, by rw [hbytes]; rfl, by simp [Record.Denotes], rfl⟩
  · refine .bind (.number 4) fun n bytes h =>
      .bind (.stringAt strings n) fun t more hstring => .pure ?_
    obtain ⟨hn, hbytes⟩ := h
    obtain ⟨hmore, ht⟩ := hstring
    obtain ⟨m, rfl⟩ : ∃ m : UInt32, m.toNat = n := ⟨n.toUInt32, UInt32.toNat_ofNat_of_lt' hn⟩
    exact ⟨.string m, by rw [hbytes, hmore]; rfl, ⟨t, by simpa using ht, rfl⟩, rfl⟩
  · refine .bind (.number 4) fun n bytes h =>
      .bind (.stringAt strings n) fun t more hstring => .pure ?_
    obtain ⟨hn, hbytes⟩ := h
    obtain ⟨hmore, ht⟩ := hstring
    obtain ⟨m, rfl⟩ : ∃ m : UInt32, m.toNat = n := ⟨n.toUInt32, UInt32.toNat_ofNat_of_lt' hn⟩
    exact ⟨.function m, by rw [hbytes, hmore]; rfl, t, ht, rfl⟩
  · exact .throw

/-! ### Functions -/

/-- The names that function constants refer to, with their places. -/
def namesOf (l : List (Value × Option Text)) : List (Nat × Text) :=
  l.zipIdx.filterMap fun ((_, name), i) => name.bind fun t =>
    if t.isEmpty then none else some (i, t)

/-- A function as it is read, before its function constants are linked. -/
structure Entry.Makes (strings : Array Text) (e : Entry) (s : Stored) : Prop where
  fits : e.Fits
  made : ∃ name constants, strings[e.name.toNat]? = some name ∧
    List.Forall₂ (Record.Gives strings) e.constants constants ∧
    s = { function := { id := e.id, name, arity := e.arity.toNat, locals := e.locals.toNat
                        chunk := some { 
                          code := e.code.toByteArray
                          lines := (e.lines.map fun n => (n.toNat : Int)).toArray
                          constants := (constants.map (·.1)).toArray } }
          names := namesOf constants }

theorem function_spells (strings : Array Text) :
    Spells (function strings) fun bytes s => ∃ e : Entry, bytes = e.bytes ∧ e.Makes strings s := by
  have hline : Spells (do return ((← number 4 : Nat) : Int)) fun bytes v =>
      ∃ n : UInt32, bytes = bigEndian 4 n.toNat ∧ (n.toNat : Int) = v := by
    refine .bind (.number 4) fun n bytes ⟨hn, hbytes⟩ => .pure ⟨n.toUInt32, ?_⟩
    rw [show n.toUInt32.toNat = n from UInt32.toNat_ofNat_of_lt' hn]
    exact ⟨by simpa using hbytes, rfl⟩
  have word (n : Nat) (hn : n < 256 ^ 4) : ∃ m : UInt32, m.toNat = n :=
    ⟨n.toUInt32, UInt32.toNat_ofNat_of_lt' hn⟩
  have half (n : Nat) (hn : n < 256 ^ 2) : ∃ m : UInt16, m.toNat = n :=
    ⟨n.toUInt16, UInt16.toNat_ofNat_of_lt' hn⟩
  refine .bind (.number 4) fun place bytes₁ ⟨hplace, h₁⟩ =>
    .bind (.stringAt strings place) fun name bytes₂ ⟨h₂, hname⟩ => ?_
  refine .bind (.number 4) fun id bytes₃ ⟨hid, h₃⟩ =>
    .bind (.number 2) fun arity bytes₄ ⟨harity, h₄⟩ => ?_
  refine .bind (.number 2) fun locals bytes₅ ⟨hlocals, h₅⟩ =>
    .bind (.number 4) fun size bytes₆ ⟨hsize, h₆⟩ => ?_
  refine .bind (.take size _) fun code bytes₇ ⟨hlength, hcode⟩ =>
    .bind (.number 4) fun lines bytes₈ ⟨_, h₈⟩ => ?_
  dsimp only
  by_cases hlines : lines = size
  · rw [if_neg (by simpa using hlines)]
    refine .bind (.many (f := fun n : UInt32 => bigEndian 4 n.toNat)
      (G := fun n v => (n.toNat : Int) = v) hline lines #[])
      fun table bytes₉ ⟨ns, vs, hns, h₉, hvs, htable⟩ => ?_
    refine .bind (.count _) fun n bytes₁₀ ⟨hn, h₁₀⟩ => .bind (.many (constant_spells strings) n #[])
      fun constants bytes₁₁ ⟨rs, xs, hrs, h₁₁, hxs, hconstants⟩ => .pure ?_
    obtain ⟨place, rfl⟩ := word place hplace
    obtain ⟨id, rfl⟩ := word id hid
    obtain ⟨arity, rfl⟩ := half arity harity
    obtain ⟨locals, rfl⟩ := half locals hlocals
    subst h₁ h₂ h₃ h₄ h₅ h₆ h₈ h₉ h₁₀ h₁₁ hcode hlines hns hrs
    have hvalues : (ns.map fun n => (n.toNat : Int)) = vs := by
      rw [← List.forall₂_eq_eq_eq, List.forall₂_map_left_iff]
      exact hvs
    refine ⟨⟨place, id, arity, locals, bytes₇, ns, rs⟩, ?_,
      ⟨⟨?_, ?_, ?_⟩, name, xs, hname, hxs, ?_⟩⟩
    · simp [Entry.bytes, hlength]
    · exact hlength ▸ hsize
    · exact hlength.symm
    · exact hn
    · simp [htable, hconstants, ← hvalues, namesOf]
  · rw [if_pos (by simpa using hlines)]
    exact .bind (.throw (S := fun _ _ => False)) fun _ _ h => h.elim

theorem functionsFrom_spells {strings : Array Text} {data : ByteArray} {n place : Nat}
    {acc out : Array Stored}
    (hle : place ≤ data.size) (h : functionsFrom strings data n place acc = .ok out) :
    ∃ (es : List Entry) (l : List Stored), es.length = n ∧
    At data place (es.map Entry.bytes).flatten ∧
      List.Forall₂ (Entry.Makes strings) es l ∧ out = acc ++ l.toArray := by
  induction n generalizing place acc with
  | zero =>
    cases h
    exact ⟨[], [], rfl, .of_le hle, .nil, by simp⟩
  | succ n ih =>
    unfold functionsFrom at h
    split at h
    · cases h
    · next s place₁ hread =>
      obtain ⟨bytes, hat, rfl, e, rfl, he⟩ := function_spells strings hle hread
      obtain ⟨es, l, rfl, hrest, hl, rfl⟩ := ih hat.le h
      exact ⟨e :: es, s :: l, rfl, hat.append hrest, .cons he hl, by simp⟩

/-! ### Links -/

/-- What linking makes of a constant. -/
def Linked (names : Array Text) (x : Value × Option Text) (v : Value) : Prop :=
  match x with
  | (w, none) => v = w
  | (w, some t) =>
    if t.isEmpty then v = w else ∃ i, names.findIdx? (· == t) = some i ∧ v = .func (some ⟨0, i, t⟩)

/-- Linking goes through the constants one by one: those `done` are linked already. -/
theorem foldlM_linked {all : Array Function} (l : List (Value × Option Text)) (done : List Value)
    {out : Array Value}
    (h : ((l.zipIdx done.length).filterMap fun ((_, name), i) =>
        name.bind fun t => if t.isEmpty then none else some (i, t)).foldlM
      (fun (constants : Array Value) (i, name) =>
        match all.findIdx? (·.name == name) with
        | none => .error (.undefinedFunction name)
        | some j =>
          if i < constants.size then .ok (constants.set! i (.func (some ⟨0, j, name⟩)))
          else .error (.fault .bounds))
            (done ++ l.map (·.1)).toArray = (.ok out : Except Error (Array Value))) :
    ∃ vs, out = (done ++ vs).toArray ∧ List.Forall₂ (Linked (all.map (·.name))) l vs := by
  induction l generalizing done with
  | nil =>
    cases h
    exact ⟨[], by simp, .nil⟩
  | cons x l ih =>
    obtain ⟨w, name⟩ := x
    have hnext : ∀ v, (done ++ v :: l.map (·.1)).toArray =
      (done ++ [v] ++ l.map (·.1)).toArray := by simp
    -- a constant that stays
    have stays (hlink : Linked (all.map (·.name)) (w, name) w)
        (hnone : (name.bind fun t => if t.isEmpty then none else some (done.length, t)) = none) :
        ∃ vs, out = (done ++ vs).toArray ∧
            List.Forall₂ (Linked (all.map (·.name))) ((w, name) :: l) vs := by
      rw [List.zipIdx_cons, List.filterMap_cons_none (by exact hnone), List.map_cons, hnext] at h
      obtain ⟨vs, rfl, hvs⟩ := ih (done ++ [w]) (by rwa [List.length_append, List.length_singleton])
      exact ⟨w :: vs, by simp, .cons hlink hvs⟩
    cases name with
    | none => exact stays rfl rfl
    | some t =>
      by_cases ht : t.isEmpty
      · exact stays (by simp [Linked, ht]) (by simp [ht])
      · rw [List.zipIdx_cons, List.filterMap_cons_some (b := (done.length, t)) (by simp [ht]),
          List.foldlM_cons] at h
        obtain ⟨constants, hstep, hrest⟩ := answer_eq_ok h
        dsimp only at hstep
        split at hstep
        · cases hstep
        · next j hj =>
          rw [if_pos (by simp)] at hstep
          cases hstep
          rw [Array.set!_eq_setIfInBounds, List.setIfInBounds_toArray,
            List.set_append_right _ _ (Nat.le_refl _),
            Nat.sub_self, List.map_cons, List.set_cons_zero, hnext] at hrest
          obtain ⟨vs, rfl, hvs⟩ :=
            ih (done ++ [.func (some ⟨0, j, t⟩)])
              (by rwa [List.length_append, List.length_singleton])
          refine ⟨.func (some ⟨0, j, t⟩) :: vs, by simp, .cons ?_ hvs⟩
          simp only [Linked, ht, Bool.false_eq_true, if_false]
          exact ⟨j, by rw [Array.findIdx?_map]; exact hj, rfl⟩

/-- A record denotes what it is read as, unless it is a nameless function constant: that is read as
null. -/
def Record.ReadAs (strings : List Text) (names : Array Text) (r : Record) (v : Value) : Prop :=
  (r.Denotes strings names v ↔ ¬ r.Nameless strings) ∧ (r.Nameless strings → v = .null)

theorem Record.Gives.readAs {strings names : Array Text} {r : Record}
    {x : Value × Option Text} {v : Value}
    (hx : r.Gives strings x) (hv : Linked names x v) : r.ReadAs strings.toList names v := by
  cases r with
  | function place =>
    obtain ⟨t, ht, rfl⟩ := hx
    have ht : strings.toList[place.toNat]? = some t := by simpa using ht
    by_cases hempty : t.isEmpty
    · simp only [Linked, hempty, if_true] at hv
      have hnameless : (Record.function place).Nameless strings.toList := ⟨t, ht, hempty⟩
      refine ⟨⟨fun ⟨_, _, _, _, h⟩ => ?_, fun h => absurd hnameless h⟩, fun _ => hv⟩
      rw [hv] at h
      cases h
    · simp only [Linked, hempty, Bool.false_eq_true, if_false] at hv
      obtain ⟨i, hi, hv⟩ := hv
      have hnamed : ¬ (Record.function place).Nameless strings.toList := by
        rintro ⟨u, hu, h⟩
        obtain rfl := Option.some.inj (ht.symm.trans hu)
        exact hempty h
      exact ⟨⟨fun _ => hnamed, fun _ => ⟨t, i, ht, hi, hv⟩⟩, fun h => absurd h hnamed⟩
  | _ =>
    obtain ⟨w, name⟩ := x
    obtain ⟨hw, rfl⟩ := hx
    obtain rfl : v = w := hv
    exact ⟨⟨fun _ => id, fun _ => hw⟩, False.elim⟩

/-- A function is what its entry says; its constants are what their records denote, the nameless ones
apart. -/
structure Entry.ReadAs (strings : List Text) (names : Array Text) (e : Entry)
    (f : Function) : Prop where
  name : strings[e.name.toNat]? = some f.name
  id : f.id = e.id
  arity : f.arity = e.arity.toNat
  locals : f.locals = e.locals.toNat
  chunk : ∃ c, f.chunk = some c ∧ c.code = e.code.toByteArray ∧
    c.lines = (e.lines.map fun n => (n.toNat : Int)).toArray ∧
    List.Forall₂ (Record.ReadAs strings names) e.constants c.constants.toList

/-- Two relations between lists in a row. -/
theorem forall₂_comp {α β γ : Type} {R : α → β → Prop} {S : β → γ → Prop} {l : List α}
    {m : List β} {n : List γ}
    (hl : List.Forall₂ R l m) (hm : List.Forall₂ S m n) :
    List.Forall₂ (fun a c => ∃ b, R a b ∧ S b c) l n := by
  induction hl generalizing n with
  | nil =>
    cases hm
    exact .nil
  | cons hhead _ ih =>
    cases hm with
    | cons hhead' htail => exact .cons ⟨_, hhead, hhead'⟩ (ih htail)

theorem Entry.Makes.link {strings : Array Text} {e : Entry} {s : Stored}
    {all : Array Function} {f : Function}
    (h : e.Makes strings s) (hlink : s.link all = .ok f) :
    f.name = s.function.name ∧ e.ReadAs strings.toList (all.map (·.name)) f := by
  obtain ⟨name, constants, hname, hconstants, rfl⟩ := h.made
  obtain ⟨out, hfold, hf⟩ := answer_eq_ok hlink
  cases hf
  obtain ⟨vs, rfl, hvs⟩ := foldlM_linked constants [] hfold
  have hread : List.Forall₂ (Record.ReadAs strings.toList (all.map (·.name))) e.constants vs :=
    (forall₂_comp hconstants hvs).imp fun _ _ ⟨_, hx, hv⟩ => hx.readAs hv
  exact ⟨rfl, by simpa using hname, rfl, rfl, rfl, _, rfl, rfl, rfl, hread⟩

/-! ### The whole file -/

theorem pool_spells : Spells pool fun bytes strings => bytes = poolBytes strings ∧
    strings.size < 256 ^ 4 ∧ ∀ t ∈ strings, t.size < 256 ^ 4 := by
  have hstring : Spells (do return (⟨← take (← number 4) .stringPool⟩ : Text)) fun bytes t =>
      ∃ u : Text, bytes = stringBytes u ∧ u.size < 256 ^ 4 ∧ u = t := by
    refine .bind (.number 4) fun n bytes ⟨hn, hbytes⟩ =>
      .bind (.take n _) fun b more ⟨hmore, hb⟩ => .pure ?_
    have hsize : (⟨b⟩ : Text).size = n := by rw [Text.size, hb, List.size_toByteArray, hmore]
    refine ⟨⟨b⟩, ?_, hsize ▸ hn, rfl⟩
    rw [stringBytes, hsize, hbytes, Text.toList, hb]
    simp
  refine .bind (.count _) fun n bytes ⟨hn, hbytes⟩ =>
    (Spells.many hstring n #[]).mono fun more strings hout => ?_
  obtain ⟨us, ts, hlength, rfl, hts, rfl⟩ := hout
  obtain rfl : us = ts := by
    rw [← List.forall₂_eq_eq_eq]
    exact hts.imp fun _ _ h => h.2
  refine ⟨by simp [hbytes, hlength, poolBytes], by simpa [hlength] using hn, fun t ht => ?_⟩
  rw [List.forall₂_same] at hts
  exact (hts t (by simpa using ht)).1

theorem preamble_places {data : ByteArray} {place n main : Nat} {strings : Array Text}
    (h : preamble data = .ok (place, n, main, strings)) :
    ∃ s f : UInt32, At data 8 (bigEndian 4 s.toNat ++ bigEndian 4 f.toNat) ∧
    At data s.toNat (poolBytes strings) ∧
      strings.size < 256 ^ 4 ∧ (∀ t ∈ strings, t.size < 256 ^ 4) ∧ n < 256 ^ 4 ∧
      At data f.toNat (bigEndian 4 n) ∧ place = f.toNat + 4 ∧ place ≤ data.size := by
  obtain ⟨_, hheader, h⟩ := answer_eq_ok h
  have hsize := checkHeader_answers data
  rw [hheader] at hsize
  have hsize : 20 ≤ data.size := hsize
  have word (i : Nat) (hi : i + 4 ≤ data.size) : ∃ m : UInt32, slice data i 4 =
    .ok (bigEndian 4 m.toNat).toByteArray ∧
      At data i (bigEndian 4 m.toNat) := by
    have hnumber : number 4 data i = .ok (value (data.extract i (i + 4)), i + 4) := by
      rw [number_apply, if_neg (by omega)]
    obtain ⟨bytes, hat, -, hm, rfl⟩ := Spells.number 4 (by omega) hnumber
    refine ⟨(value (data.extract i (i + 4))).toUInt32, ?_⟩
    rw [show (value (data.extract i (i + 4))).toUInt32.toNat = _ from UInt32.toNat_ofNat_of_lt' hm]
    have hslice := hat.slice
    rw [length_bigEndian] at hslice
    exact ⟨hslice, hat⟩
  have hvalue (m : UInt32) : value (bigEndian 4 m.toNat).toByteArray = m.toNat :=
    value_bigEndian m.toNat_lt
  obtain ⟨s, hs, hats⟩ := word 8 (by omega)
  obtain ⟨f, hf, hatf⟩ := word 12 (by omega)
  obtain ⟨m, hm, -⟩ := word 16 (by omega)
  rw [hs, hf, hm, ok_bind, ok_bind, ok_bind, hvalue s, hvalue f] at h
  dsimp only at h
  split at h
  · cases h
  · next hrange =>
    simp only [Bool.or_eq_true, decide_eq_true_eq, not_or, Nat.not_lt] at hrange
    obtain ⟨⟨strings', place'⟩, hstrings, h⟩ := answer_eq_ok h
    obtain ⟨⟨n', place''⟩, hcount, h⟩ := answer_eq_ok h
    cases h
    obtain ⟨_, hpool, -, rfl, hsizes⟩ := pool_spells hrange.1 hstrings
    obtain ⟨_, hbody, rfl, hn, rfl⟩ := Spells.count _ hrange.2 hcount
    exact ⟨s, f, hats.append hatf, hpool, hsizes.1, hsizes.2, hn, hbody,
      by rw [length_bigEndian], hbody.le⟩

theorem mapError_eq_ok {ε ε' α : Type} {g : ε → ε'} {x : Except ε α} {a : α}
    (h : x.mapError g = .ok a) : x = .ok a := by
  cases x with
  | error e => cases h
  | ok b => exact congrArg Except.ok (Except.ok.inj h)

/-- Whatever bytes hold a program, there are contents that stand in them, and the program is what
these contents say. -/
theorem contents_of_parse {data : ByteArray} {p : Program} (h : parse data = .ok p) :
    ∃ c s f, Contents.LiesIn c data s f ∧
      List.Forall₂ (Entry.ReadAs c.strings p.names) c.functions p.functions.toList := by
  obtain ⟨⟨place, n, main, strings⟩, hpreamble, h⟩ := answer_eq_ok h
  obtain ⟨stored, hstored, h⟩ := answer_eq_ok h
  dsimp only at hstored h
  split at h
  · cases h
  · obtain ⟨functions, hlink, h⟩ := answer_eq_ok h
    cases h
    obtain ⟨s, f, hheader, hpool, hcount, hsizes, hn, hbody, rfl, hle⟩ :=
      preamble_places (mapError_eq_ok hpreamble)
    obtain ⟨es, l, rfl, hentries, hmade, rfl⟩ := functionsFrom_spells hle hstored
    rw [Array.empty_append] at hlink
    generalize hall : l.toArray.map (·.function) = all at hlink
    have hlinked : List.Forall₂ (fun s f => Stored.link all s = .ok f) l functions.toList := by
      have h : Answers (fun _ => True) (l.toArray.mapM (Stored.link all)) _ :=
        .mapM (S := fun s f => Stored.link all s = .ok f) fun s _ => by
          cases Stored.link all s <;> trivial
      rwa [mapError_eq_ok hlink] at h
    have hread : List.Forall₂ (Entry.ReadAs strings.toList (all.map (·.name))) es
        functions.toList :=
      (forall₂_comp hmade hlinked).imp fun _ _ ⟨_, he, hf⟩ => (he.link hf).2
    have hnames : all.map (·.name) = functions.map (·.name) := by
      have hsame : List.Forall₂ (fun s f => s.function.name = f.name) l functions.toList :=
        hlinked.imp fun _ _ hs => by
          obtain ⟨constants, -, hf⟩ := answer_eq_ok hs
          cases hf
          rfl
      rw [← List.forall₂_map_right_iff, ← List.forall₂_map_left_iff, List.forall₂_eq_eq_eq] at hsame
      apply Array.toList_inj.mp
      rw [← hall, Array.map_map, Array.toList_map, Array.toList_map]
      exact hsame
    rw [hnames] at hread
    have hfits := ((List.forall₂_and_left _ _).mp (hmade.imp fun _ _ h => ⟨h.fits, h⟩)).1
    exact ⟨⟨strings.toList, es⟩, s, f,
      ⟨⟨hcount, fun t ht => hsizes t (by simpa using ht), hn, hfits⟩, hheader, hpool,
      hbody.append (by rwa [length_bigEndian])⟩, hread⟩

/-- Verification changes nothing that stands in a file. -/
theorem Entry.ReadAs.verify {strings : List Text} {names : Array Text} {e : Entry} {f : Function}
    (h : e.ReadAs strings names f) : e.ReadAs strings names f.verify.1 := by
  obtain ⟨m, hm⟩ := f.verify_fst
  rw [hm]
  exact ⟨h.name, h.id, h.arity, h.locals, h.chunk⟩

theorem names_verify (p : Program) : p.verify.1.names = p.names := by
  have hname (f : Function) : f.verify.1.name = f.name := by
    obtain ⟨m, hm⟩ := f.verify_fst
    rw [hm]
  simp [Program.names, Program.verify, Function.comp_def, hname]

/-- Any bytes that are read as a program spell one contents, and the program is what these contents
denote: the functions in order, with the numbers, the code and the lines of their entries, and each
constant is the one that its tag and payload stand for, a function constant being the first function
of that name. Only a function constant that says the empty name is not: it is null. -/
theorem contents_denoted {data : ByteArray} {p : Program} (h : read data = .ok p) :
    ∃ c strings functions, Contents.LiesIn c data strings functions ∧
      (∀ c' strings' functions', Contents.LiesIn c' data strings' functions' → c' = c) ∧
      List.Forall₂ (Entry.ReadAs c.strings p.names) c.functions p.functions.toList := by
  obtain ⟨q, hparse, hverify⟩ := answer_eq_ok h
  obtain ⟨c, strings, functions, hlies, hread⟩ := contents_of_parse hparse
  refine ⟨c, strings, functions, hlies, fun _ _ _ h' => (h'.unique hlies).1, ?_⟩
  dsimp only at hverify
  split at hverify
  · cases hverify
    rw [names_verify]
    simp only [Program.verify, Array.map_map, Array.toList_map, List.forall₂_map_right_iff]
    exact hread.imp fun _ _ he => he.verify
  · cases hverify

/-- A program whose function has no name and refers to itself. -/
def nameless : Contents where
  strings := [∅]
  functions := [{ 
    name := 0, id := 1, arity := 0, locals := 0, code := [0, 0, 0, 33], lines :=
        [1, 1, 1, 1], constants := [.function 0] }]

/-- Its file is accepted and the function constant is read as null. -/
theorem nameless_read_as_null :
    ∃ p f c, read (fileBytes 0 nameless.pool nameless.body).toByteArray = .ok p ∧
    nameless.LiesIn (fileBytes 0 nameless.pool nameless.body).toByteArray 20 28 ∧
    p.functions = #[f] ∧ f.name = ∅ ∧ f.chunk = some c ∧ c.constants = #[.null] := by
  have hlies : nameless.LiesIn (fileBytes 0 nameless.pool nameless.body).toByteArray 20 28 := by
    refine Contents.Fits.liesIn ⟨by decide, by simp [nameless]; decide, by decide, ?_⟩ 0 (by decide)
    simp only [nameless, List.mem_singleton, forall_eq]
    exact ⟨by decide, rfl, by decide⟩
  have hsome : (read (fileBytes 0 nameless.pool nameless.body).toByteArray).toOption.isSome =
    true := by decide +kernel
  cases hread : read (fileBytes 0 nameless.pool nameless.body).toByteArray with
  | error e =>
    rw [hread] at hsome
    cases hsome
  | ok p =>
    obtain ⟨c, strings, functions, -, hunique, hfunctions⟩ := contents_denoted hread
    obtain rfl := hunique _ _ _ hlies
    obtain ⟨f, rest, hf, hrest, hlist⟩ := List.forall₂_cons_left_iff.mp hfunctions
    obtain rfl := List.forall₂_nil_left_iff.mp hrest
    obtain ⟨chunk, hchunk, -, -, hconstants⟩ := hf.chunk
    obtain ⟨v, rest, hv, hrest, hvs⟩ := List.forall₂_cons_left_iff.mp hconstants
    obtain rfl := List.forall₂_nil_left_iff.mp hrest
    obtain rfl := hv.2 ⟨∅, rfl, rfl⟩
    exact ⟨p, f, chunk, rfl, hlies, Array.toList_inj.mp hlist,
      (Option.some.inj hf.name).symm, hchunk, 
      Array.toList_inj.mp hvs⟩

end LoopTracer.Bytecode.Image
