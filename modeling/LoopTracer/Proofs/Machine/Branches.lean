import LoopTracer.Machine.Backend
import LoopTracer.Proofs.Machine.Memory

/-! Jumps in code memory.

A jump that was written leads to its target, in both encodings, and patching it makes it lead
elsewhere. Both concern the bytes of that jump alone. -/
namespace LoopTracer.Machine

namespace Backend

/-- The bytes of a jump. -/
def jumpLength : Backend → Nat
  | virtual => Virtual.wordSize
  | x64 => 5

end Backend

/-- The bytes of a jump, those before its distance first. -/
def Backend.jumpBytes (b : Backend) (site target : CodeAddr) : List UInt8 :=
  match b with
  | virtual => [Virtual.Opcode.jump.toByte, 0, 0, 0]
      ++ (littleEndian 4 (distance target ((site.toNat : Int) + Virtual.wordSize)).toUInt32.toNat
        ++ littleEndian 8 0)
  | x64 => [0xE9] ++ (X64.int32Bytes (distance target ((site.toNat : Int) + 5)) ++ [])

/-- Where in a jump the four bytes of its distance begin. -/
def Backend.distancePlace : Backend → Nat
  | virtual => 4
  | x64 => 1

/-- At `site` there is a jump, and it leads to `target`. -/
structure Jumps (b : Backend) (mem : Memory) (site target : CodeAddr) : Prop where
  inside : site.toNat + b.jumpLength ≤ mem.size
  shows : mem.Shows site.toNat (b.jumpBytes site target)

section

variable {b : Backend} {mem mem' : Memory} {site target : CodeAddr}

/-! ### Addresses -/

theorem toNat_ofInt {n : Int} (h : 0 ≤ n) (h' : n < 2 ^ 32) : (UInt32.ofInt n).toNat = n.toNat := by
  rw [UInt32.ofInt, UInt32.toNat_ofNat_of_lt' (show _ < 2 ^ 32 by omega)]
  omega

theorem toNat_sub_of_le {a : CodeAddr} {k : Nat} (hk : k ≤ a.toNat) :
    (a - k.toUInt32).toNat = a.toNat - k := by
  have hlt := a.toNat_lt
  have hk' : k.toUInt32.toNat = k := UInt32.toNat_ofNat_of_lt' (show _ < 2 ^ 32 by omega)
  rw [UInt32.toNat_sub_of_le _ _ (UInt32.le_iff_toNat_le.mpr (by omega)), hk']

theorem toNat_add_of_lt {a : CodeAddr} {k : Nat} (hk : a.toNat + k < 2 ^ 32) :
    (a + k.toUInt32).toNat = a.toNat + k := by
  have hk' : k.toUInt32.toNat = k := UInt32.toNat_ofNat_of_lt' (show _ < 2 ^ 32 by omega)
  rw [UInt32.toNat_add, hk', Nat.mod_eq_of_lt hk]

/-- The distance of a branch, counted from its end, leads to the target. -/
theorem ofInt_distance (target : CodeAddr) (stop : Int) :
    UInt32.ofInt (stop + (distance target stop).toInt) = target := by
  have hlt := target.toNat_lt
  have hsize : (Int32.size : Int) = 2 ^ 32 := rfl
  apply UInt32.toNat.inj
  rw [distance, Int32.toInt_ofInt, UInt32.ofInt,
    UInt32.toNat_ofNat_of_lt' (show _ < 2 ^ 32 by omega),
    Int.bmod_def, hsize]
  split <;> omega

/-- A distance is read back from the bytes it was written to. -/
theorem Memory.Shows.distance {place : Nat} {d : Int32}
    (h : mem.Shows place (littleEndian 4 d.toUInt32.toNat)) :
    (mem.readLittle place 4).toUInt32.toInt32 = d := by
  rw [h.readLittle]
  simp

/-! ### The two encodings -/

theorem Virtual.field?_eq (hfit : site.toNat + wordSize ≤ mem.size) (hsize : mem.size < 2 ^ 32) :
    field? mem site = some (site.toNat + 4) := by
  have hword : wordSize = 16 := rfl
  unfold field?
  rw [show site + 4 = site + (4 : Nat).toUInt32 from rfl,
    show site + 8 = site + (8 : Nat).toUInt32 from rfl,
    toNat_add_of_lt (by omega), toNat_add_of_lt (by omega)]
  simp only [Bool.and_eq_true, decide_eq_true_eq]
  rw [if_pos (by omega)]

theorem Virtual.branchTarget_of_shows (hfit : site.toNat + wordSize ≤ mem.size)
    (hsize : mem.size < 2 ^ 32)
    (hshows : mem.Shows (site.toNat + 4)
      (littleEndian 4 (distance target ((site.toNat : Int) + wordSize)).toUInt32.toNat)) :
    branchTarget mem site = .ok target := by
  unfold branchTarget
  rw [field?_eq hfit hsize]
  dsimp only
  rw [hshows.distance, destination, ofInt_distance]

theorem X64.branchAt_jump (hopcode : mem.get? site.toNat = some 0xE9) :
    branchAt mem site = .ok (site + 1, site + 5) := by
  unfold branchAt
  rw [hopcode]
  rfl

theorem X64.branchTarget_of_shows (hopcode : mem.get? site.toNat = some 0xE9)
    (hfit : site.toNat + 5 ≤ mem.size) (hsize : mem.size < 2 ^ 32)
    (hshows : mem.Shows (site.toNat + 1) (int32Bytes (distance target ((site.toNat : Int) + 5)))) :
    branchTarget mem site = .ok target := by
  have hfield : (site + 1).toNat = site.toNat + 1 := toNat_add_of_lt (k := 1) (by omega)
  have hstop : (site + 5).toNat = site.toNat + 5 := toNat_add_of_lt (k := 5) (by omega)
  unfold branchTarget
  rw [branchAt_jump hopcode]
  show (if mem.size < (site + 1).toNat + 4 then _ else _ : Except Fault CodeAddr) = _
  rw [hfield, hstop, if_neg (by omega), hshows.distance]
  show Except.ok (UInt32.ofInt (((site.toNat + 5 : Nat) : Int) + _)) = _
  rw [Int.natCast_add, Int.cast_ofNat_Int, ofInt_distance]

/-! ### Jumps of both -/

theorem Backend.length_jumpBytes (b : Backend) (site target : CodeAddr) :
    (b.jumpBytes site target).length = b.jumpLength := by
  cases b <;> simp [jumpBytes, jumpLength, Virtual.wordSize, X64.int32Bytes]

/-- Jumps in one place differ only in their distances. -/
theorem Backend.jumpBytes_congr (b : Backend) (site target target' : CodeAddr) {i : Nat}
    (hi : i < b.distancePlace ∨ b.distancePlace + 4 ≤ i) :
    (b.jumpBytes site target)[i]? = (b.jumpBytes site target')[i]? := by
  have hmiddle : ∀ {l m m' r : List UInt8}, l.length = b.distancePlace →
    m.length = 4 → m'.length = 4 →
      (l ++ (m ++ r))[i]? = (l ++ (m' ++ r))[i]? := by
    intro l m m' r hl hm hm'
    rcases hi with hi | hi
    · rw [List.getElem?_append_left (by omega), List.getElem?_append_left (by omega)]
    · rw [List.getElem?_append_right (by omega), List.getElem?_append_right (by omega),
        List.getElem?_append_right (by omega), List.getElem?_append_right (by omega), hm, hm']
  cases b with
  | virtual => exact hmiddle rfl (by simp) (by simp)
  | x64 => exact hmiddle rfl (by simp [X64.int32Bytes]) (by simp [X64.int32Bytes])

/-- A jump is decoded as one to its target. -/
theorem Jumps.branchTarget (h : Jumps b mem site target) (hsize : mem.size < 2 ^ 32) :
    b.branchTarget mem site = .ok target := by
  have hshows := h.shows
  cases b with
  | virtual => exact Virtual.branchTarget_of_shows h.inside hsize hshows.append_right.append_left
  | x64 =>
    exact X64.branchTarget_of_shows (hshows 0 _ rfl) h.inside hsize hshows.append_right.append_left

/-- A jump depends on no bytes but its own. -/
theorem Jumps.congr (h : Jumps b mem site target) (hsize : mem'.size = mem.size)
    (hsame : ∀ a, site.toNat ≤ a → a < site.toNat + b.jumpLength → mem'.get? a = mem.get? a) :
    Jumps b mem' site target := by
  refine ⟨hsize ▸ h.inside, h.shows.congr fun a hlow hhigh => hsame a hlow ?_⟩
  rwa [b.length_jumpBytes] at hhigh

/-- Where the jump that ends at `pos` begins. -/
theorem toNat_branchSite {pos : CodeAddr} (hpos : b.jumpLength ≤ pos.toNat) :
    (b.branchSite pos (.jump target)).toNat = pos.toNat - b.jumpLength := by
  cases b with
  | virtual => exact toNat_sub_of_le (k := 16) hpos
  | x64 => exact toNat_sub_of_le (k := 5) hpos

theorem encode_jump {pos : CodeAddr} :
    b.encode pos (.jump target) = .ok (b.jumpBytes (b.branchSite pos (.jump target)) target) := by
  cases b <;> simp [Backend.encode, Virtual.encode, Virtual.word?, Virtual.Word.bytes, X64.encode,
    X64.branchField, Backend.jumpBytes, Backend.branchSite, Virtual.word?.endOf, Virtual.wordSize]

/-- Patching a jump makes it lead elsewhere and touches only its own bytes. -/
theorem Jumps.patch (h : Jumps b mem site target) (hm : mem.Valid) (hsize : mem.size < 2 ^ 32)
    (target' : CodeAddr) : ∃ mem', b.patch mem site target' = .ok mem' ∧ Jumps b mem' site target' ∧
      mem'.Valid ∧ mem'.size = mem.size ∧
      ∀ a, a < site.toNat ∨ site.toNat + b.jumpLength ≤ a → mem'.get? a = mem.get? a := by
  have hinside := h.inside
  have hshows := h.shows
  cases b with
  | virtual =>
    let field :=
      littleEndian 4 (distance target' ((site.toNat : Int) + Virtual.wordSize)).toUInt32.toNat
    have hword : Backend.virtual.jumpLength = 16 := rfl
    have hlength := Backend.length_jumpBytes .virtual site target
    refine ⟨mem.write (site.toNat + 4) field, ?_, ⟨by rwa [Memory.size_write], ?_⟩,
      Memory.write_valid hm _ _,
      Memory.size_write .., fun a ha => ?_⟩
    · have hopcode : mem.get? site.toNat = some Virtual.Opcode.jump.toByte := hshows 0 _ rfl
      unfold Backend.patch Virtual.patch
      dsimp only
      rw [hopcode]
      dsimp only
      rw [if_neg (by decide), Virtual.field?_eq hinside hsize]
    · exact hshows.replace hm (by simp [field]) (hlength ▸ hinside)
    · rw [Memory.get?_write hm (by simp [field]; omega), if_neg (by simp [field]; omega)]
  | x64 =>
    let field := X64.int32Bytes (distance target' ((site.toNat : Int) + 5))
    have hfield : field.length = 4 := by simp [field, X64.int32Bytes]
    have hword : Backend.x64.jumpLength = 5 := rfl
    have hlength := Backend.length_jumpBytes .x64 site target
    refine ⟨mem.write (site.toNat + 1) field, ?_, ⟨by rwa [Memory.size_write], ?_⟩,
      Memory.write_valid hm _ _,
      Memory.size_write .., fun a ha => ?_⟩
    · have hopcode : mem.get? site.toNat = some 0xE9 := hshows 0 _ rfl
      have hplace : (site + 1).toNat = site.toNat + 1 := toNat_add_of_lt (k := 1) (by omega)
      have hstop : (site + 5).toNat = site.toNat + 5 := toNat_add_of_lt (k := 5) (by omega)
      unfold Backend.patch X64.patch
      dsimp only
      rw [X64.branchAt_jump hopcode]
      show (if mem.size < (site + 1).toNat + 4 then _ else _ : Except Fault Memory) = _
      rw [hplace, hstop, if_neg (by omega)]
      rfl
    · exact hshows.replace hm (by rw [hfield]; simp [X64.int32Bytes]) (hlength ▸ hinside)
    · rw [Memory.get?_write hm (by omega), if_neg (by omega)]

end

end LoopTracer.Machine
