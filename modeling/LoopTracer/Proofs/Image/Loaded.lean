import LoopTracer.Proofs.Image.Storable
import LoopTracer.Proofs.Verification.Strict

/-! What a loaded program can be relied on for.

The bytes of a file are anybody's. Still, loading them makes no access outside the file, the tables
read from it or the code in it, and what it hands out is `Program.Loaded`: distinct ids, a main
function without parameters, and functions whose code is `Runnable`, whose line tables are complete
and whose constants refer to functions of the program itself. The main statement is `read_safe`. -/
namespace LoopTracer.Bytecode

open StackDepth

/-- Code that stays inside itself whatever it does, read off the bytes alone. -/
structure Runnable (f : Function) (c : Chunk) : Prop where
  whole : ∀ {i}, Starts c i → ∃ op, c.opcode? i = some op ∧ i + op.size ≤ c.size
  constant : ∀ {i op}, Starts c i → c.opcode? i = some op → op.operand = .const →
    ∃ n, c.u16? (i + 1) = some n ∧ n.toNat < c.constants.size
  slot : ∀ {i op}, Starts c i → c.opcode? i = some op → op.operand = .slot →
    ∃ n, c.u16? (i + 1) = some n ∧ n.toNat < f.locals
  builtin : ∀ {i}, Starts c i → c.opcode? i = some .builtin →
    ∃ b n, c.byte? (i + 1) = some b ∧ Builtin.ofByte? b = some n
  jump : ∀ {i op}, Starts c i → c.opcode? i = some op → op.operand = .jump ∨ op.operand = .loop →
    ∃ j : Nat, c.target? i = some (j : Int) ∧ Starts c j
  loop : ∀ {i}, Starts c i → c.opcode? i = some .loop → ∃ t, c.target? i = some t ∧ t ≤ i
  last : ∀ {i op}, Starts c i → c.opcode? i = some op → i + op.size = c.size →
    op = .ret ∨ op = .halt ∨ op = .jump ∨ op = .loop
  arity : f.arity ≤ f.locals
  depths : ∃ r, Labelled c 256 r ∧ f.maxStack = r.maxDepth

theorem Verified.runnable {f : Function} {c : Chunk} {r : Result} (h : Verified f c r) :
    Runnable f c := by
  have whole {i : Nat} {op : Opcode} (hi : Starts c i) (hop : c.opcode? i = some op) :
      Whole f c i op := by
    obtain ⟨op', hw⟩ := h.sound.whole hi
    obtain rfl := Option.some.inj (hop.symm.trans hw.opcode)
    exact hw
  refine ⟨fun hi => ?_, fun hi hop hconst => (whole hi hop).constant hconst,
    fun hi hop hslot => (whole hi hop).slot hslot, fun hi hop => (whole hi hop).builtin,
    fun hi hop hjump => ?_, fun hi hop => ?_, fun hi hop hend =>
      ?_, h.arity, r, h.labelled, h.maxStack⟩
  · obtain ⟨op, hw⟩ := h.sound.whole hi
    exact ⟨op, hw.opcode, hw.fits⟩
  · obtain ⟨j, hj, hstarts⟩ := h.sound.jumpTarget_starts hi (whole hi hop) hjump
    exact ⟨j, by rw [(whole hi hop).target, hj], hstarts⟩
  · exact ⟨_, (whole hi hop).target, h.sound.loop_back hi (whole hi hop)⟩
  · -- Any other operation is followed by one more instruction.
    refine Classical.byContradiction fun hother => ?_
    have hnext := h.sound.next_starts hi (whole hi hop) (by simpa [not_or] using hother)
    have := hnext.2
    omega

/-- A constant of a loaded program. -/
def Value.Resolved (p : Program) : Value → Prop
  | .int n => -2147483648 ≤ n.toInt ∧ n.toInt ≤ 2147483647
  | .func r =>
    ∃ ref f, r = some ref ∧ ref.unit = 0 ∧ p.functions[ref.index]? = some f ∧ f.name = ref.name
  | .reserved _ => False
  | _ => True

structure Program.Loaded (p : Program) : Prop where
  ids : (p.functions.toList.map (·.id)).Nodup
  main : ∃ i f, p.main = .listed i ∧ p.functions[i]? = some f ∧ f.arity = 0
  functions : ∀ f ∈ p.functions, ∃ c, f.chunk = some c ∧ Runnable f c ∧ c.lines.size = c.size ∧
    ∀ v ∈ c.constants, v.Resolved p

/-! ### From storable to loaded -/

theorem nodup_of_duplicateIds {seen : List UInt32} {l : List Function}
    (h : duplicateIds seen l = []) : (l.map (·.id)).Nodup ∧ ∀ f ∈ l, f.id ∉ seen := by
  induction l generalizing seen with
  | nil => exact ⟨.nil, nofun⟩
  | cons f rest ih =>
    rw [duplicateIds, List.append_eq_nil_iff] at h
    obtain ⟨hnodup, hfresh⟩ := ih h.2
    have hseen : f.id ∉ seen := by simpa using h.1
    refine ⟨?_, ?_⟩
    · rw [List.map_cons, List.nodup_cons]
      refine ⟨fun hmem => ?_, hnodup⟩
      obtain ⟨g, hg, hid⟩ := List.mem_map.mp hmem
      exact hfresh g hg (by simp [hid])
    · intro g hg
      rcases List.mem_cons.mp hg with rfl | hg
      · exact hseen
      · exact fun hmem => hfresh g hg (List.mem_cons_of_mem _ hmem)

/-- A storable constant refers into the program. -/
theorem Value.Storable.resolved {p : Program} {v : Value} (h : v.Storable p.names) :
    v.Resolved p.verify.1 := by
  cases v with
  | int n => exact ⟨n.le_toInt, Int.le_of_lt_add_one n.toInt_lt⟩
  | func r =>
    cases r with
    | none => exact h.elim
    | some ref =>
      obtain ⟨hunit, -, hindex⟩ := h
      obtain ⟨hlt, hname, -⟩ := Array.findIdx?_eq_some_iff_getElem.mp hindex
      have hsize : ref.index < p.functions.size := by simpa [Program.names] using hlt
      have hname : p.functions[ref.index].name = ref.name := by simpa [Program.names] using hname
      obtain ⟨m, hm⟩ := p.functions[ref.index].verify_fst
      refine ⟨ref, p.functions[ref.index].verify.1, rfl, hunit, ?_, by rw [hm, ← hname]⟩
      rw [Program.getElem?_verify, Array.getElem?_eq_getElem hsize, Option.map_some]
  | _ => trivial

/-- Accepting a storable program makes it a loaded one. -/
theorem Program.Storable.loaded {p : Program} (h : p.Storable) (haccept : p.verify.2 = []) :
    p.verify.1.Loaded := by
  have hverified := p.verified_of_accepted haccept
  simp only [verify, List.append_eq_nil_iff] at haccept
  obtain ⟨⟨hids, -⟩, hmainOk⟩ := haccept
  refine ⟨?_, ?_, fun f hf => ?_⟩
  · have hsame : p.verify.1.functions.toList.map (·.id) = p.functions.toList.map (·.id) := by
      simp only [verify, Array.map_map, Array.toList_map, List.map_map]
      refine List.map_congr_left fun f _ => ?_
      obtain ⟨m, hm⟩ := f.verify_fst
      show f.verify.1.id = f.id
      rw [hm]
    rw [hsame]
    exact (nodup_of_duplicateIds hids).1
  · obtain ⟨i, hmain, hlt⟩ := h.main
    obtain ⟨m, hm⟩ := p.functions[i].verify_fst
    refine ⟨i, p.functions[i].verify.1, hmain, ?_, ?_⟩
    · rw [getElem?_verify, Array.getElem?_eq_getElem hlt, Option.map_some]
    · rw [mainRefusals, mainFunction?, hmain] at hmainOk
      simp only [Array.getElem?_eq_getElem hlt] at hmainOk
      rw [hm]
      simpa using hmainOk
  · obtain ⟨c, r, hv⟩ := hverified f hf
    simp only [verify, Array.map_map, Array.mem_map] at hf
    obtain ⟨g, hg, rfl⟩ := hf
    obtain ⟨c', hchunk, hstorable⟩ := (h.functions g hg).chunk
    obtain ⟨m, hm⟩ := g.verify_fst
    obtain rfl : c' = c := by
      have hsame := hv.chunk
      rw [Function.comp_apply, hm] at hsame
      exact Option.some.inj (hchunk.symm.trans hsame)
    exact ⟨c', hv.chunk, hv.runnable, hstorable.lines,
      fun v hmem => (hstorable.constants v hmem).resolved⟩

namespace Image

/-- Loading makes no stray access, whatever the bytes are, and verification looks only at code
that is there; what is loaded can run. -/
theorem read_safe (data : ByteArray) :
    (∀ f : Function, Strict.verify f = .ok f.verify) ∧
      ((∃ e, read data = .error e ∧ e.Sober) ∨ ∃ p, read data = .ok p ∧ p.Loaded) := by
  refine ⟨Strict.verify_eq, ?_⟩
  have hparse := parse_answers data
  unfold read
  cases hx : parse data with
  | error e =>
    rw [hx] at hparse
    exact .inl ⟨e, rfl, hparse⟩
  | ok p =>
    rw [hx] at hparse
    rw [ok_bind]
    cases hrefusals : p.verify.2 with
    | nil => exact .inr ⟨p.verify.1, by simp [hrefusals]; rfl, hparse.loaded hrefusals⟩
    | cons r rest => exact .inl ⟨.refused (r :: rest), by simp [hrefusals]; rfl, trivial⟩

end Image

end LoopTracer.Bytecode
