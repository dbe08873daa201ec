import Mathlib.Data.List.Nodup
import LoopTracer.Proofs.Fragment.Eviction
import LoopTracer.Proofs.Fragment.Filing

/-! Whose guards are registered.

What an operation can do to the registered guards is one of three things (`Turnover`): nothing at
all, to drop some fragments with their guards, or to put one fragment with new guards into use. A
cache is stocked for the fragments in use if their guards are the registered ones (`Stocked`); this
is kept by each of the three, whatever else happens to the trees. Numbers of guards are never used
twice as long as they last. -/
namespace LoopTracer.FragmentCache

open Trace Compile Machine

variable {c c' c'' : FragmentCache} {id j : FragmentId} {f : Fragment} {used : FragmentId → Bool}

/-- The guards of the fragment with a number. -/
def guardsOf (c : FragmentCache) (id : FragmentId) : List GuardId :=
  (c.fragment? id).elim [] (·.guards)

/-- Whether the fragment with a number is compiled. -/
def compiled (c : FragmentCache) (id : FragmentId) : Bool := (c.fragment? id).any (·.executable)

/-! ### Nothing happens to the guards -/

structure Akin (c c' : FragmentCache) : Prop where
  guards : ∀ id, c'.guardsOf id = c.guardsOf id
  compiled : ∀ id, c'.compiled id = c.compiled id
  registered : c'.registered = c.registered
  count : c.guardCount ≤ c'.guardCount

instance : IsPreorder FragmentCache Akin where
  refl _ := ⟨fun _ => rfl, fun _ => rfl, rfl, Nat.le_refl _⟩
  trans _ _ _ h h' :=
    ⟨fun id => (h'.guards id).trans (h.guards id), fun id => (h'.compiled id).trans (h.compiled id),
    h'.registered.trans h.registered, Nat.le_trans h.count h'.count⟩

/-- The table of fragments is not touched. -/
theorem akin_congr (hfragments : c'.fragments = c.fragments)
    (hregistered : c'.registered = c.registered)
    (hcount : c.guardCount ≤ c'.guardCount) : Akin c c' := by
  have hfragment : ∀ id, c'.fragment? id = c.fragment? id := fun id => by
    rw [fragment?, fragment?, hfragments]
  refine ⟨fun id => ?_, fun id => ?_, hregistered, hcount⟩
  · rw [guardsOf, guardsOf, hfragment]
  · rw [FragmentCache.compiled, FragmentCache.compiled, hfragment]

/-- A fragment is changed in a way that has nothing to do with its guards. -/
theorem akin_update (c : FragmentCache) (id : FragmentId) {g : Fragment → Fragment}
    (hg : ∀ f, c.fragments[place id]? = some f → (g f).guards = f.guards ∧
      (g f).executable = f.executable) :
    Akin c (c.update id g) := by
  have hfragment : ∀ j, (c.update id g).fragment? j = c.fragment? j ∨
      ∃ f, c.fragment? j = some f ∧ (c.update id g).fragment? j = some (g f) ∧
        (g f).guards = f.guards ∧
        (g f).executable = f.executable := by
    intro j
    unfold fragment?
    split
    · exact .inl rfl
    · rw [getElem?_update]
      split
      · next hplace =>
        cases hf : c.fragments[place j]? with
        | none => exact .inl rfl
        | some f => exact .inr ⟨f, rfl, rfl, hg f (hplace ▸ hf)⟩
      · exact .inl rfl
  refine ⟨fun j => ?_, fun j => ?_, rfl, Nat.le_refl _⟩
  all_goals rcases hfragment j with hsame | ⟨f, hf, hf', hguards, hexecutable⟩
  · rw [guardsOf, guardsOf, hsame]
  · rw [guardsOf, guardsOf, hf, hf']
    exact hguards
  · rw [FragmentCache.compiled, FragmentCache.compiled, hsame]
  · rw [FragmentCache.compiled, FragmentCache.compiled, hf, hf']
    exact hexecutable

theorem akin_add (c : FragmentCache) {new : Fragment} (hguards : new.guards = [])
    (hstate : new.executable = false) :
    Akin c (c.add new) := by
  have hfragment : ∀ j, (c.add new).fragment? j = c.fragment? j ∨
      c.fragment? j = none ∧ (c.add new).fragment? j = some new := by
    intro j
    unfold fragment? add
    split
    · exact .inl rfl
    · dsimp only
      rw [Array.getElem?_push]
      split
      · next hplace => exact .inr ⟨by rw [hplace]; simp, rfl⟩
      · exact .inl rfl
  refine ⟨fun j => ?_, fun j => ?_, rfl, Nat.le_refl _⟩
  all_goals rcases hfragment j with hsame | ⟨hf, hf'⟩
  · rw [guardsOf, guardsOf, hsame]
  · rw [guardsOf, guardsOf, hf, hf']
    exact hguards
  · rw [FragmentCache.compiled, FragmentCache.compiled, hsame]
  · rw [FragmentCache.compiled, FragmentCache.compiled, hf, hf']
    exact hstate

theorem paged_akin {α : Type} (x : CodePages.Paged α) : Keeps Akin (fun _ => True) (paged x) := by
  intro c
  unfold KeepsAt paged
  dsimp only
  cases x c.region with
  | ok a r => exact akin_congr rfl rfl (Nat.le_refl _)
  | error e r => exact ⟨akin_congr rfl rfl (Nat.le_refl _), trivial⟩

theorem redirect_akin (g : Guard) (target : ExitTarget) (address : CodeAddr) :
    Keeps Akin (fun _ => True) (redirect g target address) := by
  intro c
  unfold KeepsAt redirect
  dsimp only
  cases c.backend.patch c.region.mem g.site address with
  | ok mem => exact akin_congr rfl rfl (Nat.le_refl _)
  | error e => exact ⟨akin_congr rfl rfl (Nat.le_refl _), trivial⟩

theorem promote_akin (g : Guard) (child : Fragment) :
    Keeps Akin (fun _ => True) (promote g child) := by
  unfold promote
  split
  · exact .throw trivial
  · exact redirect_akin _ _ _

theorem unpatch_akin (g : Guard) : Keeps Akin (fun _ => True) (unpatch g) :=
  .bind .get fun _ => redirect_akin _ _ _

theorem getOrCreate_akin (c : FragmentCache) (key : LoopKey) : Akin c (c.getOrCreate key).1 := by
  unfold getOrCreate
  split
  · exact refl_of Akin c
  · refine trans_of Akin (b := c.add { id := c.nextId, key, kind := .root, root := c.nextId })
      (akin_add c rfl rfl) ?_
    exact akin_congr rfl rfl (Nat.le_refl _)

theorem addPeer_akin (root : Fragment) (types : TypeMap) :
    Keeps Akin (fun _ => True) (addPeer root types) := by
  intro c
  unfold KeepsAt addPeer
  split
  · next h =>
    split at h
    · cases h
    · cases h
      refine trans_of Akin (akin_add c ?_ ?_) (akin_update _ _ ?_)
      · rfl
      · rfl
      · exact fun _ _ => ⟨rfl, rfl⟩
  · next h =>
    split at h
    · cases h
      exact ⟨refl_of Akin c, trivial⟩
    · cases h

theorem attachChild_akin (parent : Fragment) (g : Guard) :
    Keeps Akin (fun _ => True) (attachChild parent g) := by
  intro c
  unfold KeepsAt attachChild
  split
  · next h =>
    split at h
    · cases h
    · cases h
      refine trans_of Akin (akin_add c ?_ ?_) (akin_update _ _ ?_)
      · rfl
      · rfl
      · exact fun _ _ => ⟨rfl, rfl⟩
  · next h =>
    split at h
    · cases h
      exact ⟨refl_of Akin c, trivial⟩
    · cases h

theorem attachTrace_akin (c : FragmentCache) (id : FragmentId) (b : Buffer)
    (target : Option FragmentId) :
    Akin c (c.attachTrace id b target) := by
  unfold attachTrace
  refine trans_of Akin (akin_congr ?_ ?_ ?_) (akin_update _ _ ?_)
  · rfl
  · rfl
  · exact Nat.le_refl _
  · exact fun _ _ => ⟨rfl, rfl⟩

/-- A branch that is dropped before it is compiled has no part in this. -/
theorem discard_akin (hf : c.fragment? f.id = some f)
    (h : discard f c = .ok () c') : Akin c c' := by
  unfold discard at h
  split at h
  · cases h
  · next hopen =>
    cases h
    have hstate : f.state ≠ .compiled := by simp at hopen; exact hopen.2
    obtain ⟨hid, hplace⟩ := fragment?_eq_some.mp hf
    have hparent : ∀ g : Fragment →
      Fragment, (∀ q, (g q).guards = q.guards ∧ (g q).executable = q.executable) →
        ∀ p : FragmentId, Akin c (c.update p g) ∧
          ∃ q, (c.update p g).fragments[place f.id]? = some q ∧
          q.executable = f.executable := by
      intro g hg p
      refine ⟨akin_update c p fun q _ => hg q, ?_⟩
      rw [getElem?_update, hplace]
      split
      · exact ⟨g f, rfl, (hg f).2⟩
      · exact ⟨f, rfl, rfl⟩
    have hlast : ∀ c₁ : FragmentCache,
      (∃ q, c₁.fragments[place f.id]? = some q ∧ q.executable = f.executable) →
        Akin c₁ (c₁.update f.id fun f => { f with cached := false, state := .invalidated }) := by
      rintro c₁ ⟨q, hq, hsame⟩
      refine akin_update c₁ f.id fun q' hq' => ⟨rfl, ?_⟩
      rw [hq] at hq'
      cases hq'
      rw [hsame]
      exact (beq_eq_false_iff_ne.mpr hstate).symm
    split
    · next p _ =>
      obtain ⟨hakin, hplace'⟩ :=
        hparent (fun q => { q with children := q.children.erase f.id }) (fun _ => ⟨rfl, rfl⟩) p
      exact trans_of Akin hakin (hlast _ hplace')
    · exact hlast c ⟨f, hplace, rfl⟩

/-! ### Fragments are dropped -/

/-- The fragments of which `D` holds were dropped with their guards. -/
structure Culled (D : FragmentId → Bool) (c c' : FragmentCache) : Prop where
  guards : ∀ id, c'.guardsOf id = c.guardsOf id
  compiled : ∀ id, c'.compiled id = (c.compiled id && !D id)
  registered : ∀ g, g ∈ c'.registered ↔ g ∈ c.registered ∧ ∀ id, D id = true → g ∉ c.guardsOf id
  count : c.guardCount ≤ c'.guardCount

theorem Akin.culled {D : FragmentId → Bool} (h : Akin c c')
    (h' : Culled D c' c'') : Culled D c c'' where
  guards id := (h'.guards id).trans (h.guards id)
  compiled id := by rw [h'.compiled, h.compiled]
  registered g := by simp only [h'.registered, h.registered, h.guards]
  count := Nat.le_trans h.count h'.count

theorem Culled.akin {D : FragmentId → Bool} (h : Culled D c c')
    (h' : Akin c' c'') : Culled D c c'' where
  guards id := (h'.guards id).trans (h.guards id)
  compiled id := by rw [h'.compiled, h.compiled]
  registered g := by simp only [h'.registered, h.registered]
  count := Nat.le_trans h.count h'.count

theorem Culled.trans {D D' : FragmentId → Bool} (h : Culled D c c') (h' : Culled D' c' c'') :
    Culled (fun id => D id || D' id) c c'' where
  guards id := (h'.guards id).trans (h.guards id)
  compiled id := by rw [h'.compiled, h.compiled, Bool.not_or, Bool.and_assoc]
  registered g := by
    simp only [h'.registered, h.registered, h.guards, Bool.or_eq_true]
    exact ⟨fun ⟨⟨hg, hD⟩, hD'⟩ => ⟨hg, fun id => Or.rec (hD id) (hD' id)⟩,
      fun ⟨hg, hDD'⟩ => ⟨⟨hg, fun id hid => hDD' id (.inl hid)⟩, fun id hid => hDD' id (.inr hid)⟩⟩
  count := Nat.le_trans h.count h'.count

/-- A fragment is taken out of use after its guards were taken back. -/
theorem Culled.of_akin {g : Fragment → Fragment} (hid : f.id ≠ 0)
    (hown : c.guardsOf f.id = f.guards)
    (h : Akin { c with registered := f.guards.foldl (·.erase ·) c.registered } c')
    (hg : ∀ f, (g f).guards = f.guards ∧ (g f).executable = false) :
    Culled (· == f.id) c (c'.update f.id g) := by
  refine ⟨fun j => ?_, fun j => ?_, fun k => ?_, h.count⟩
  · rw [show c.guardsOf j = _ from (h.guards j).symm, guardsOf, guardsOf, fragment?_update hid]
    split
    · cases c'.fragment? j with
      | none => rfl
      | some p => exact (hg p).1
    · rfl
  · rw [show c.compiled j = _ from (h.compiled j).symm, FragmentCache.compiled,
      FragmentCache.compiled, fragment?_update hid]
    split
    · next hj =>
      rw [beq_iff_eq.mpr hj, Bool.not_true, Bool.and_false]
      cases c'.fragment? j with
      | none => rfl
      | some p => exact (hg p).2
    · next hj => rw [beq_eq_false_iff_ne.mpr hj, Bool.not_false, Bool.and_true]
  · rw [update_registered, h.registered, mem_foldl_erase]
    simp only [beq_iff_eq, forall_eq, hown]

/-- One fragment is dropped. -/
theorem drop_culls {mask : Array Bool} (hid : f.id ≠ 0) (hown : c.guardsOf f.id = f.guards)
    (h : drop mask f c = .ok () c') : Culled (· == f.id) c c' := by
  unfold drop at h
  obtain ⟨_, c₁, hfirst, hrest⟩ := bind_eq_ok h
  obtain ⟨_, c₂, hmain, hrest⟩ := bind_eq_ok hrest
  obtain ⟨_, c₃, hexits, hlast⟩ := bind_eq_ok hrest
  cases hlast
  cases hfirst
  -- up to the last change only the registered guards are fewer
  have hpages := trans_of Akin ((paged_akin _).ok hmain) ((paged_akin _).ok hexits)
  have hparent : Akin c₃ (parentless mask f c₃) := by
    unfold parentless
    split
    · split
      · exact refl_of Akin c₃
      · exact akin_update _ _ fun _ _ => ⟨rfl, rfl⟩
    · exact refl_of Akin c₃
  have hpeers : ∀ c : FragmentCache, Akin c (peerless mask f c) := by
    intro c
    unfold peerless
    split
    · exact akin_update _ _ fun _ _ => ⟨rfl, rfl⟩
    · exact refl_of Akin c
  have hroots : ∀ c : FragmentCache, Akin c (rootless f c) := by
    intro c
    unfold rootless
    split
    · exact akin_congr rfl rfl (Nat.le_refl _)
    · exact refl_of Akin c
  have hakin := trans_of Akin hpages (trans_of Akin (trans_of Akin hparent (hpeers _)) (hroots _))
  refine Culled.of_akin hid hown hakin ?_
  exact fun _ => ⟨rfl, rfl⟩

/-- Every fragment of a list is dropped. -/
theorem dropAll_culls {mask : Array Bool} {l : List Fragment}
    (hl : ∀ f ∈ l, f.id ≠ 0 ∧ c.guardsOf f.id = f.guards)
    (h : l.forM (drop mask) c = .ok () c') : Culled (fun id => l.any (id == ·.id)) c c' := by
  induction l generalizing c with
  | nil =>
    cases h
    exact ⟨fun _ => rfl, fun _ => by simp, fun _ => by simp, Nat.le_refl _⟩
  | cons f l ih =>
    obtain ⟨_, c₁, hfirst, hrest⟩ := bind_eq_ok h
    obtain ⟨hid, hown⟩ := hl f List.mem_cons_self
    have hone := drop_culls hid hown hfirst
    have hothers :=
      ih (c := c₁) (fun f' hf' => (hl f' (List.mem_cons_of_mem f hf')).imp_right
        (hone.guards _).trans) hrest
    exact hone.trans hothers

/-- Fragments have the numbers of their places. -/
theorem Filed.id_at {V : Immediate → Prop} {B : FragmentId → LoopKey → Prop}
    {own : Option FragmentId}
    (h : c.Filed V B own) (hsize : c.fragments.size < 2 ^ 32) {k : Nat}
    (hk : c.fragments[k]? = some f) :
    f.id.toNat = k + 1 ∧ f.id ≠ 0 ∧ c.fragment? f.id = some f := by
  have hbound : k < c.fragments.size := (Array.getElem?_eq_some_iff.mp hk).1
  have hnumber : (k + 1).toUInt32.toNat = k + 1 :=
    UInt32.toNat_ofNat_of_lt' (Nat.lt_of_le_of_lt hbound hsize)
  have hne : (k + 1).toUInt32 ≠ 0 := fun hzero => by simp [hzero] at hnumber
  have hfragment : c.fragment? (k + 1).toUInt32 = some f := by
    refine fragment?_eq_some.mpr ⟨hne, ?_⟩
    rw [place, hnumber, Nat.add_sub_cancel]
    exact hk
  rw [h.numbered hfragment]
  exact ⟨hnumber, hne, hfragment⟩

theorem invalidate_culls {V : Immediate → Prop} {B : FragmentId → LoopKey → Prop}
    {own : Option FragmentId}
    (hc : c.Filed V B own) (hsize : c.fragments.size < 2 ^ 32) {gone : List FragmentId}
    (h : invalidate id c = .ok gone c') :
    ∃ D, Culled D c c' := by
  unfold invalidate at h
  obtain ⟨_, _, hget, hrest⟩ := bind_eq_ok h
  cases hget
  obtain ⟨_, c₁, hunpatch, hrest⟩ := bind_eq_ok hrest
  obtain ⟨_, c₂, hdrop, hlast⟩ := bind_eq_ok hrest
  cases hlast
  have hakin := (Keeps.forM (fun g => unpatch_akin g) _).ok hunpatch
  refine ⟨_, hakin.culled (dropAll_culls (fun f hf => ?_) hdrop)⟩
  obtain ⟨k, hk⟩ := Array.mem_iff_getElem?.mp (Array.mem_toList_iff.mp (List.mem_filter.mp hf).1)
  obtain ⟨-, hid, hf⟩ := hc.id_at hsize hk
  refine ⟨hid, ?_⟩
  rw [hakin.guards, guardsOf, hf]
  rfl

/-! ### A fragment is put into use -/

/-- A fragment that was not compiled was put into use, with guards that have new numbers. -/
structure Added (id : FragmentId) (c c' : FragmentCache) : Prop where
  compiled : ∀ j, c'.compiled j = (j == id || c.compiled j)
  open_before : c.compiled id = false
  guards : ∀ j, j ≠ id → c'.guardsOf j = c.guardsOf j
  registered : ∀ g, g ∈ c'.registered ↔ g ∈ c.registered ∨ g ∈ c'.guardsOf id
  count : c.guardCount ≤ c'.guardCount
  numbers : ∃ ks : List Nat, c'.guardsOf id = ks.map Nat.toUInt32 ∧ ks.Nodup ∧
    ∀ k ∈ ks, c.guardCount < k ∧ k ≤ c'.guardCount

theorem Akin.added (h : Akin c c') (h' : Added id c' c'') : Added id c c'' where
  compiled j := by rw [h'.compiled, h.compiled]
  open_before := h.compiled id ▸ h'.open_before
  guards j hj := (h'.guards j hj).trans (h.guards j)
  registered g := by rw [h'.registered, h.registered]
  count := Nat.le_trans h.count h'.count
  numbers := h'.numbers.imp fun _ ⟨hids, hnodup, hks⟩ =>
    ⟨hids, hnodup, fun k hk => ⟨Nat.lt_of_le_of_lt h.count (hks k hk).1, (hks k hk).2⟩⟩

theorem Added.akin (h : Added id c c') (h' : Akin c' c'') : Added id c c'' where
  compiled j := by rw [h'.compiled, h.compiled]
  open_before := h.open_before
  guards j hj := (h'.guards j).trans (h.guards j hj)
  registered g := by rw [h'.registered, h.registered, h'.guards]
  count := Nat.le_trans h.count h'.count
  numbers := h.numbers.imp fun _ ⟨hids, hnodup, hks⟩ => ⟨(h'.guards id).trans hids, hnodup,
    fun k hk => ⟨(hks k hk).1, Nat.le_trans (hks k hk).2 h'.count⟩⟩

theorem paged_eq_ok {α : Type} {x : CodePages.Paged α} {y : α} (h : paged x c = .ok y c') :
    ∃ r, x c.region = .ok y r ∧ c' = { c with region := r } := by
  unfold paged at h
  dsimp only at h
  cases hx : x c.region with
  | ok a r =>
    rw [hx] at h
    cases h
    exact ⟨r, rfl, rfl⟩
  | error e r =>
    rw [hx] at h
    cases h

/-- Code that was put into use, whatever the pages were before. -/
theorem install_installed {a : Assembly} (hid : id ≠ 0) (h : install id a c = .ok () c') :
    ∃ r, Installed id a r c c' := by
  have hinstall := h
  unfold install at hinstall
  obtain ⟨_, c₁, hfirst, hrest⟩ := bind_eq_ok hinstall
  cases hfirst
  obtain ⟨_, c₂, hfirst, hrest⟩ := bind_eq_ok hrest
  obtain ⟨r₁, hmain, rfl⟩ := paged_eq_ok hfirst
  obtain ⟨_, c₃, hsecond, -⟩ := bind_eq_ok hrest
  obtain ⟨r₂, hexits, -⟩ := paged_eq_ok hsecond
  exact ⟨r₂, (ensures_ok h).mp (install_ensures hid a hmain hexits)⟩

/-- A trace was compiled and put into use. -/
theorem install_adds {limits : Limits} {helpers : HelperTable} {a : Assembly}
    {c₁ : FragmentCache} {l : List Nat}
    (hfrees : c.region.Frees l) (hf : c.fragment? id = some f) (hopen : f.state ≠ .compiled)
    (ha : c.assemble limits helpers f = .ok a c₁)
    (hi : install id a c₁ = .ok () c') : Added id c c' := by
  rw [assemble_eq] at ha
  split at ha
  · next a' shop hshop =>
    cases ha
    have hb := assemble_ok hfrees hshop
    obtain ⟨r, h⟩ := install_installed (fragment?_eq_some.mp hf).1 hi
    have hself := h.fragment_self hf
    have hguards : c'.guardsOf id = a.guards.map (·.id) := by
      rw [guardsOf, hself]
      rfl
    refine ⟨fun j => ?_, ?_, fun j hj => ?_, fun g => ?_, ?_, ?_⟩
    · by_cases hj : j = id
      · subst hj
        rw [FragmentCache.compiled, hself, beq_self_eq_true, Bool.true_or]
        rfl
      · rw [FragmentCache.compiled, h.fragment_other hj, beq_eq_false_iff_ne.mpr hj, Bool.false_or]
        rfl
    · rw [FragmentCache.compiled, hf]
      exact beq_eq_false_iff_ne.mpr hopen
    · rw [guardsOf, h.fragment_other hj]
      rfl
    · rw [hguards]
      exact h.registered
    · rw [h.count]
      exact hb.count
    · rw [h.count, hguards]
      exact hb.numbers
  · cases ha

/-- A trace that was not compiled leaves the guards alone. -/
theorem assemble_akin {limits : Limits} {helpers : HelperTable} {e : AssembleError} {l : List Nat}
    (hfrees : c.region.Frees l) (h : c.assemble limits helpers f = .error e c')
    (he : ∀ fault, e ≠ .fault fault) :
    Akin c c' := by
  rw [assemble_eq] at h
  split at h
  · cases h
  · next e' shop hshop =>
    cases h
    rcases assemble_error hfrees hshop with ⟨fault, hfault, -⟩ | ⟨-, -, -, hcount⟩
    · exact absurd hfault (he fault)
    · exact akin_congr rfl rfl hcount

/-! ### What is in stock -/

/-- Every guard has one owner, and the registered ones are those of the fragments in use. -/
structure Owned (used : FragmentId → Bool) (c : FragmentCache) : Prop where
  nodup : ∀ id, (c.guardsOf id).Nodup
  apart : ∀ {id j g}, g ∈ c.guardsOf id → g ∈ c.guardsOf j → id = j
  issued : ∀ {id g}, g ∈ c.guardsOf id → g.toNat ≤ c.guardCount
  registered : ∀ g, g ∈ c.registered ↔ ∃ id, used id = true ∧ g ∈ c.guardsOf id

/-- The fragments in use are compiled, and as long as numbers last the registered guards are
theirs. -/
structure Stocked (used : FragmentId → Bool) (c : FragmentCache) : Prop where
  compiled : ∀ id, used id = true → c.compiled id = true
  owned : c.guardCount < 2 ^ 32 → c.Owned used

theorem Stocked.akin (h : Stocked used c) (h' : Akin c c') : Stocked used c' := by
  refine ⟨fun id hid => (h'.compiled id).trans (h.compiled id hid), fun hcount => ?_⟩
  have ho := h.owned (Nat.lt_of_le_of_lt h'.count hcount)
  refine ⟨fun id => h'.guards id ▸ ho.nodup id, fun {id j g} hg hj => ?_,
    fun {id g} hg => ?_, fun g => ?_⟩
  · exact ho.apart (h'.guards id ▸ hg) (h'.guards j ▸ hj)
  · exact Nat.le_trans (ho.issued (h'.guards id ▸ hg)) h'.count
  · simp only [h'.registered, h'.guards, ho.registered]

theorem Stocked.culled {D : FragmentId → Bool} (h : Stocked used c) (h' : Culled D c c') :
    Stocked (fun id => used id && !D id) c' := by
  refine ⟨fun id hid => ?_, fun hcount => ?_⟩
  · rw [Bool.and_eq_true] at hid
    rw [h'.compiled, h.compiled id hid.1, hid.2, Bool.and_true]
  have ho := h.owned (Nat.lt_of_le_of_lt h'.count hcount)
  refine ⟨fun id => h'.guards id ▸ ho.nodup id, fun {id j g} hg hj => ?_,
    fun {id g} hg => ?_, fun g => ?_⟩
  · exact ho.apart (h'.guards id ▸ hg) (h'.guards j ▸ hj)
  · exact Nat.le_trans (ho.issued (h'.guards id ▸ hg)) h'.count
  · simp only [h'.registered, h'.guards, ho.registered, Bool.and_eq_true, Bool.not_eq_true']
    constructor
    · rintro ⟨⟨id, hid, hg⟩, hD⟩
      exact ⟨id, ⟨hid, Bool.eq_false_iff.mpr fun hdropped => hD id hdropped hg⟩, hg⟩
    · rintro ⟨id, ⟨hid, hD⟩, hg⟩
      refine ⟨⟨id, hid, hg⟩, fun j hj hg' => ?_⟩
      rw [ho.apart hg' hg, hD] at hj
      cases hj

theorem Stocked.added (h : Stocked used c) (h' : Added id c c') :
    Stocked (fun j => j == id || used j) c' := by
  refine ⟨fun j hj => ?_, fun hcount => ?_⟩
  · rw [h'.compiled, Bool.or_eq_true]
    exact (Bool.or_eq_true _ _ ▸ hj).imp_right (h.compiled j)
  have ho := h.owned (Nat.lt_of_le_of_lt h'.count hcount)
  obtain ⟨ks, hids, hks, hbound⟩ := h'.numbers
  have hlt : ∀ k ∈ ks, k < 2 ^ 32 := fun k hk => Nat.lt_of_le_of_lt (hbound k hk).2 hcount
  -- the numbers of the new guards are greater than those of all others
  have hnew : ∀ {g}, g ∈ c'.guardsOf id → c.guardCount < g.toNat ∧ g.toNat ≤ c'.guardCount := by
    intro g hg
    rw [hids] at hg
    obtain ⟨k, hk, rfl⟩ := List.mem_map.mp hg
    rw [show k.toUInt32.toNat = k from UInt32.toNat_ofNat_of_lt' (hlt k hk)]
    exact hbound k hk
  have hold : ∀ {j g}, j ≠ id → g ∈ c'.guardsOf j → g ∈ c.guardsOf j :=
    fun hj hg => h'.guards _ hj ▸ hg
  have hapart : ∀ {j g}, j ≠ id → g ∈ c'.guardsOf j → g ∉ c'.guardsOf id := fun hj hg hg' =>
    Nat.not_lt.mpr (ho.issued (hold hj hg)) (hnew hg').1
  refine ⟨fun j => ?_, fun {j k g} hg hg' => ?_, fun {j g} hg => ?_, fun g => ?_⟩
  · by_cases hj : j = id
    · rw [hj, hids]
      exact List.Nodup.map_on (fun k hk k' hk' => toUInt32_inj (hlt k hk) (hlt k' hk')) hks
    · exact h'.guards j hj ▸ ho.nodup j
  · by_cases hj : j = id
    · by_cases hk : k = id
      · rw [hj, hk]
      · exact absurd (hj ▸ hg) (hapart hk hg')
    · by_cases hk : k = id
      · exact absurd (hk ▸ hg') (hapart hj hg)
      · exact ho.apart (hold hj hg) (hold hk hg')
  · by_cases hj : j = id
    · exact (hnew (hj ▸ hg)).2
    · exact Nat.le_trans (ho.issued (hold hj hg)) h'.count
  · rw [h'.registered, ho.registered]
    constructor
    · rintro (⟨j, hj, hg⟩ | hg)
      · have hne : j ≠ id := by
          rintro rfl
          have hopen := h'.open_before
          rw [h.compiled j hj] at hopen
          cases hopen
        exact ⟨j, by rw [hj, Bool.or_true], h'.guards j hne ▸ hg⟩
      · exact ⟨id, by rw [beq_self_eq_true, Bool.true_or], hg⟩
    · rintro ⟨j, hj, hg⟩
      by_cases hne : j = id
      · exact .inr (hne ▸ hg)
      · rw [beq_eq_false_iff_ne.mpr hne, Bool.false_or] at hj
        exact .inl ⟨j, hj, hold hne hg⟩

theorem stocked_new (b : Backend) (r : CodePages) :
    Stocked (fun _ => false) { backend := b, region := r } := by
  have hnone : ∀ id, guardsOf { backend := b, region := r } id = [] := fun id => by
    simp [guardsOf, fragment?]
  refine ⟨(fun _ h => by cases h),
    fun _ => ⟨fun id => ?_, fun {id j g} hg => ?_, fun {id g} hg => ?_, fun g => ?_⟩⟩
  · rw [hnone]
    exact .nil
  · rw [hnone] at hg
    cases hg
  · rw [hnone] at hg
    cases hg
  · simp

/-- Everything is dropped. -/
theorem Stocked.emptied (h : Stocked used c) (hguards : ∀ id, c'.guardsOf id = c.guardsOf id)
    (hregistered : ∀ g, g ∉ c'.registered) (hcount : c.guardCount ≤ c'.guardCount) :
    Stocked (fun _ => false) c' := by
  refine ⟨nofun, fun hlt => ?_⟩
  have ho := h.owned (Nat.lt_of_le_of_lt hcount hlt)
  refine ⟨fun id => hguards id ▸ ho.nodup id, fun {id j g} hg hj => ?_,
    fun {id g} hg => ?_, fun g => ?_⟩
  · exact ho.apart (hguards id ▸ hg) (hguards j ▸ hj)
  · exact Nat.le_trans (ho.issued (hguards id ▸ hg)) hcount
  · simp [hregistered g]

section Filed

variable {V : Immediate → Prop} {B : FragmentId → LoopKey → Prop} {own : Option FragmentId}

theorem invalidateRoots_culls (l : List FragmentId) (hc : c.Filed V B own)
    (hsize : c.fragments.size < 2 ^ 32) :
    Ensures Anyhow (invalidateRoots l) c fun _ c' => ∃ D, Culled D c c' := by
  have hnothing : ∀ c, Culled (fun _ => false) c c := fun c =>
    ⟨fun _ => rfl, fun _ => by simp, fun _ => by simp, Nat.le_refl _⟩
  induction l generalizing c with
  | nil => exact .pure ⟨_, hnothing c⟩
  | cons id l ih =>
    unfold invalidateRoots
    refine .get ?_
    extract_lets rest
    -- the first one is dropped or there is nothing to do about it, and then come the others
    have hrest : ∀ {c₁ : FragmentCache} {D} (gone), Culled D c c₁ → c₁.Filed V B own →
      c₁.fragments.size < 2 ^ 32 →
        Ensures Anyhow (rest gone) c₁ fun _ c' => ∃ D, Culled D c c' := fun _ hD hc₁ hsize₁ =>
      .bind (ih hc₁ hsize₁) fun _ _ h => .pure (h.elim fun D' hD' => ⟨_, hD.trans hD'⟩)
    split
    · split
      · exact .pure_bind (hrest _ (hnothing c) hc hsize)
      · refine .bind (Q := fun gone c₁ => invalidate id c = .ok gone c₁) ?_ fun gone c₁ hdrop => ?_
        · unfold Ensures
          split
          · next h => exact h
          · trivial
        · obtain ⟨D, hD⟩ := invalidate_culls hc hsize hdrop
          have hreduced := ((invalidate_reduces id).ok hdrop).faded
          exact hrest gone hD (hc.reduced hreduced) (hreduced.size ▸ hsize)
    · exact .pure_bind (hrest _ (hnothing c) hc hsize)

theorem flush_stocks (h : Stocked used c) (hc : c.Filed V B own) (hsize : c.fragments.size < 2 ^ 32)
    {gone : List FragmentId} (hflush : flush c = .ok gone c') : Stocked (fun _ => false) c' := by
  unfold flush at hflush
  obtain ⟨_, _, hget, hrest⟩ := bind_eq_ok hflush
  cases hget
  obtain ⟨_, c₁, hroots, hrest⟩ := bind_eq_ok hrest
  obtain ⟨D, hD⟩ := (ensures_ok hroots).mp (invalidateRoots_culls _ hc hsize)
  cases hrest
  refine h.emptied (fun id => ?_) (fun g => ?_) hD.count
  · rw [← hD.guards, guardsOf, guardsOf, fragment?, fragment?]
    dsimp only
    split
    · rfl
    · rw [Array.getElem?_map]
      cases c₁.fragments[place id]? <;> rfl
  · exact Std.TreeSet.not_mem_emptyc

end Filed

/-! ### Stock and size -/

/-- What an operation does to the registered guards. -/
inductive Turnover (c c' : FragmentCache) : Prop where
  | none (h : Akin c c')
  | dropped (D : FragmentId → Bool) (h : Culled D c c')
  | added (id : FragmentId) (h : Added id c c')

theorem Turnover.after (h : Turnover c' c'') (h' : Akin c c') : Turnover c c'' := by
  cases h with
  | none h => exact .none (trans_of Akin h' h)
  | dropped D h => exact .dropped D (h'.culled h)
  | added id h => exact .added id (h'.added h)

/-- The fragments in use after an operation: those that were in use before or have been compiled by
it, and are compiled now. -/
def inUse (used : FragmentId → Bool) (c c' : FragmentCache) (id : FragmentId) : Bool :=
  c'.compiled id && (used id || !c.compiled id)

theorem Stocked.turnover (h : Stocked used c) (ht : Turnover c c') :
    Stocked (inUse used c c') c' := by
  have hcompiled : ∀ id, used id = true → c.compiled id = true := h.compiled
  cases ht with
  | none hakin =>
    have hsame : inUse used c c' = used := funext fun id => by
      rw [inUse, hakin.compiled]
      cases hid : used id <;> cases hc : c.compiled id <;> simp_all
    rw [hsame]
    exact h.akin hakin
  | dropped D hculled =>
    have hless : inUse used c c' = fun id => used id && !D id := funext fun id => by
      rw [inUse, hculled.compiled]
      cases hid : used id <;> cases hc : c.compiled id <;> simp_all
    rw [hless]
    exact h.culled hculled
  | added id hadded =>
    have hmore : inUse used c c' = fun j => j == id || used j := funext fun j => by
      rw [inUse, hadded.compiled]
      by_cases hj : j = id
      · subst hj
        simp [hadded.open_before]
      · rw [beq_eq_false_iff_ne.mpr hj]
        cases hid : used j <;> cases hc : c.compiled j <;> simp_all
    rw [hmore]
    exact h.added hadded

/-- As many guards are registered as the fragments in use have together. -/
theorem Stocked.guardsSize {V : Immediate → Prop} {B : FragmentId → LoopKey → Prop}
    {own : Option FragmentId}
    (h : Stocked used c) (hc : c.Filed V B own) (hsize : c.fragments.size < 2 ^ 32)
    (hcount : c.guardCount < 2 ^ 32) :
    c.guardsSize = ((c.fragments.toList.filter fun f => used f.id).map (·.guards.length)).sum := by
  have ho := h.owned hcount
  have hmem : ∀ f ∈ c.fragments.toList, c.fragment? f.id = some f ∧ c.guardsOf f.id = f.guards := by
    intro f hf
    obtain ⟨k, hk⟩ := Array.mem_iff_getElem?.mp (Array.mem_toList_iff.mp hf)
    obtain ⟨-, -, hf⟩ := hc.id_at hsize hk
    refine ⟨hf, ?_⟩
    rw [guardsOf, hf]
    rfl
  have hids : c.fragments.toList.Pairwise fun f f' => f.id ≠ f'.id := by
    refine List.pairwise_iff_getElem.mpr fun i j hi hj hij heq => ?_
    obtain ⟨hi', -⟩ :=
      hc.id_at hsize (k := i) (f := c.fragments.toList[i]) (by simp at hi; simp [hi])
    obtain ⟨hj', -⟩ :=
      hc.id_at hsize (k := j) (f := c.fragments.toList[j]) (by simp at hj; simp [hj])
    rw [heq, hj'] at hi'
    omega
  let l := c.fragments.toList.filter fun f => used f.id
  have hnodup : (l.flatMap (·.guards)).Nodup := by
    refine List.nodup_flatMap.mpr ⟨fun f hf => ?_, ?_⟩
    · rw [← (hmem f (List.mem_filter.mp hf).1).2]
      exact ho.nodup f.id
    · refine (hids.filter _).imp_of_mem fun {f f'} hf hf' hne g hg hg' =>
        hne (ho.apart (g := g) ?_ ?_)
      · exact (hmem f (List.mem_filter.mp hf).1).2 ▸ hg
      · exact (hmem f' (List.mem_filter.mp hf').1).2 ▸ hg'
  have hperm : c.registered.toList.Perm (l.flatMap (·.guards)) := by
    refine (List.perm_ext_iff_of_nodup ?_ hnodup).mpr fun g => ?_
    · exact Std.TreeSet.distinct_toList.imp fun hne heq => by simp [heq] at hne
    · rw [Std.TreeSet.mem_toList, ho.registered, List.mem_flatMap]
      constructor
      · rintro ⟨id, hid, hg⟩
        cases hf : c.fragment? id with
        | none => simp [guardsOf, hf] at hg
        | some f =>
          rw [guardsOf, hf] at hg
          have hplace := (fragment?_eq_some.mp hf).2
          refine ⟨f, List.mem_filter.mpr
            ⟨Array.mem_toList_iff.mpr (Array.mem_of_getElem? hplace), ?_⟩, hg⟩
          rw [hc.numbered hf]
          exact hid
      · rintro ⟨f, hf, hg⟩
        obtain ⟨hf, hid⟩ := List.mem_filter.mp hf
        exact ⟨f.id, hid, (hmem f hf).2 ▸ hg⟩
  calc c.guardsSize = c.registered.toList.length := Std.TreeSet.length_toList.symm
    _ = (l.flatMap (·.guards)).length := hperm.length_eq
    _ = (l.map (·.guards.length)).sum := List.length_flatMap

end LoopTracer.FragmentCache
