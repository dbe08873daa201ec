import LoopTracer.Proofs.Fragment.Dependents
import LoopTracer.Proofs.Fragment.Installation

/-! Dropping fragments.

A fragment is dropped together with all that depends on it. First the exits of guards that stay are
sent back from fragments that go; then the fragments go one after the other, each with its guards and
its pages, and those that stay forget them. What is left is sound (`invalidate_ensures`), and after
everything was dropped nothing is left (`flush_ensures`). -/
namespace LoopTracer.FragmentCache

open Trace Compile Machine

variable {c c' : FragmentCache} {id : FragmentId} {f f' : Fragment} {p q : Prop}
  {D : FragmentId → Bool}

/-! ### What is left -/

theorem Pruned.pagesOf (h : Pruned D c c') (hf : c.fragment? id = some f)
    (hD : D id = false) (side : Side) :
    c'.pagesOf id side = c.pagesOf id side := by
  obtain ⟨children, peers, hf', -⟩ := h.kept hf hD
  rw [pagesOf_eq hf, pagesOf_eq hf']
  cases side <;> rfl

/-- Fragments go together with all that depends on them and with their guards and pages, and no exit
of the others leads into them. -/
theorem Sound.pruned (hs : Sound p q c) (hc : Closed c D) (h : Pruned D c c')
    (hregion : CodePages.Alike c.region c'.region) (hheld : c'.region.Held c'.pagesOf)
    (hguards : c'.guards = c.guards)
    (hregistered : ∀ g, g ∈ c'.registered ↔
      g ∈ c.registered ∧ ∀ id f, c.fragment? id = some f → D id = true → g ∉ f.guards)
    (hcached : p → ∀ id f, c.fragment? id = some f → D id = true → f.cached = true ∨ Spent f)
    (hclear : q → c.guardCount < 2 ^ 32 → ∀ (g : GuardId) (r : Guard) k, g ∈ c'.registered →
      c.guards[g]? = some r →
      r.target = .fragment k → D k = false) : Sound p q c' := by
  have hcount := h.count
  -- a guard of a fragment that stays is none of those that go
  have hapart : p ∨ c.guardCount < 2 ^ 32 → ∀ {id f g}, c.cached? id = some f →
    D id = false → g ∈ f.guards →
      ∀ j q, c.fragment? j = some q → D j = true → g ∉ q.guards := by
    intro hp id f g hf hD hg j q hq hDj hgq
    have hsame : id = j := by
      rcases hp with hp | hlt
      · rcases hcached hp j q hq hDj with hlive | ⟨hnone, -⟩
        · exact (hs.armed (.inl hp)).one hf (cached?_eq_some.mpr ⟨hq, hlive⟩) hg hgq
        · rw [hnone] at hgq
          cases hgq
      · obtain ⟨r, hr, hid⟩ := hs.issued hlt id f g (fragment?_of_cached hf) hg
        obtain ⟨r', hr', hj⟩ := hs.issued hlt j q g hq hgq
        rw [hr] at hr'
        cases hr'
        exact hid.symm.trans hj
    rw [hsame, hDj] at hD
    cases hD
  refine ⟨hs.trees.pruned hc h, ⟨hheld, fun {id f' side} hf' hne => ?_⟩, fun hp => ?_,
    fun hlt => ?_, fun hq hlt => ?_⟩
  · obtain ⟨f, hf, ⟨-, hgone⟩ | ⟨hD, children, peers, rfl, -⟩⟩ := h.fragment_back hf'
    · refine absurd ?_ hne
      cases side
      · exact hgone.mainPages
      · exact hgone.exitPages
    · have hpages : f.pages side ≠ [] := by cases side <;> exact hne
      have hlodged := hs.housed.lodged hf hpages
      exact hlodged
  · rw [hcount] at hp
    have ha := hs.armed hp
    refine ⟨fun hf' hg => ?_, fun hg => ?_, fun hf' hq' hg hg' => ?_⟩
    · obtain ⟨f, hf, hD, rfl⟩ := h.cached_back hf'
      exact (hregistered _).mpr ⟨ha.ready hf hg, hapart hp hf hD hg⟩
    · obtain ⟨hg, hnone⟩ := (hregistered _).mp hg
      obtain ⟨id, f, hf, hmem⟩ := ha.only hg
      have hD : D id = false := by
        rw [← Bool.not_eq_true]
        exact fun hD => hnone id f (fragment?_of_cached hf) hD hmem
      exact ⟨id, _, h.cached hf hD, hmem⟩
    · obtain ⟨f, hf, -, rfl⟩ := h.cached_back hf'
      obtain ⟨q, hq, -, rfl⟩ := h.cached_back hq'
      exact ha.one hf hq hg hg'
  · refine (hs.issued (hcount ▸ hlt)).congr (fun hf' hg => ?_) fun {g r} hr =>
      ⟨r.target, by rw [hguards, hr]⟩
    obtain ⟨f, hf, ⟨-, hgone⟩ | ⟨-, children, peers, rfl, -⟩⟩ := h.fragment_back hf'
    · exact ⟨f, hf, hgone.guards ▸ hg⟩
    · exact ⟨f, hf, hg⟩
  · rw [hcount] at hlt
    have hw := hs.wired hq hlt
    refine hw.congr h.backend hregion (fun hg => ((hregistered _).mp hg).1)
      (fun _ hr => hguards ▸ hr)
      (fun hf' hstate => ?_) (fun {g r k} hg hr htarget => ?_) fun {g r} hg hr => ?_
    · obtain ⟨f, hf, -, rfl⟩ := h.cached_back hf'
      exact ⟨f, { f with children := f.children.filter fun k => !D k,
                         peers := f.peers.filter fun k => !D k }, hf, rfl⟩
    · rw [hguards] at hr
      obtain ⟨q, hq', -, hstate, -⟩ := hw.child hr ((hregistered _).mp hg).1 htarget
      exact ⟨_, h.cached hq' (hclear hq hlt g r k hg hr htarget), hstate⟩
    · rw [hguards] at hr
      obtain ⟨-, f, hf, hmem, -⟩ := hs.trees.records hr
      refine h.pagesOf hf ?_ .exits
      rw [← Bool.not_eq_true]
      exact fun hD => ((hregistered _).mp hg).2 _ f hf hD hmem

/-! ### One fragment after the other -/

section drop

variable {mask : Array Bool} {E : Fault → FragmentCache → Prop}

/-- What a fragment becomes when another one is dropped. -/
def shed (mask : Array Bool) (f : Fragment) (j : FragmentId) (q : Fragment) : Fragment :=
  let q := { q with
    children := if f.parent = some j ∧ marked mask j = false
        then q.children.erase f.id else q.children
    peers := if f.kind = .peer ∧ marked mask f.root = false ∧ j = f.root
        then q.peers.erase f.id else q.peers }
  if j = f.id then { q with
    mainPages := []
    exitPages := []
    mainCode := []
    exitCode := []
    cached := false
    state := .invalidated } else q

/-- A fragment was dropped, which left the code pages `r`. -/
structure Dropped (mask : Array Bool) (f : Fragment) (r : CodePages)
    (c c' : FragmentCache) : Prop where
  backend : c'.backend = c.backend
  region : c'.region = r
  size : c'.fragments.size = c.fragments.size
  count : c'.guardCount = c.guardCount
  guards : c'.guards = c.guards
  registered : c'.registered = f.guards.foldl (·.erase ·) c.registered
  roots : c'.roots = if f.kind = .root ∧ c.roots[f.key]? = some f.id
    then c.roots.erase f.key else c.roots
  fragment : ∀ j, c'.fragment? j = (c.fragment? j).map (shed mask f j)

/-- Nothing but the fragments was changed, each in a way of its own. -/
structure Mapped (g : FragmentId → Fragment → Fragment) (c c' : FragmentCache) : Prop where
  same : c' = { c with fragments := c'.fragments }
  size : c'.fragments.size = c.fragments.size
  fragment : ∀ j, c'.fragment? j = (c.fragment? j).map (g j)

theorem mapped_update (c : FragmentCache) (hid : id ≠ 0) (P : Prop) [Decidable P]
    (g : Fragment → Fragment) :
    Mapped (fun j q => if P ∧ j = id then g q else q) c (if P then c.update id g else c) := by
  by_cases hP : P
  · rw [if_pos hP]
    refine ⟨rfl, update_size c g, fun j => ?_⟩
    rw [fragment?_update hid]
    by_cases hj : j = id
    · simp [hP, hj]
    · simp [hj]
  · rw [if_neg hP]
    exact ⟨rfl, rfl, fun j => by simp [hP]⟩

theorem Mapped.congr {g g' : FragmentId → Fragment → Fragment} (h : Mapped g c c')
    (hg : ∀ j q, g j q = g' j q) :
    Mapped g' c c' :=
  (funext fun j => funext fun q => hg j q : g = g') ▸ h

theorem Mapped.trans {g g' : FragmentId → Fragment → Fragment} {c₁ : FragmentCache}
    (h : Mapped g c c₁)
    (h' : Mapped g' c₁ c') : Mapped (fun j q => g' j (g j q)) c c' where
  same := by rw [h'.same, h.same]
  size := h'.size.trans h.size
  fragment j := by
    rw [h'.fragment, h.fragment, Option.map_map]
    rfl

theorem drop_ensures (hid : f.id ≠ 0) (hroot : f.root ≠ 0) (hparent : f.parent ≠ some 0)
    {r₁ r₂ : CodePages}
    (hmain : CodePages.releaseAll f.mainPages c.region = .ok () r₁)
    (hexits : CodePages.releaseAll f.exitPages r₁ = .ok () r₂) :
    Ensures E (drop mask f) c fun _ c' => Dropped mask f r₂ c c' := by
  unfold drop
  refine .bind (.modify rfl) fun _ c₁ (hc₁ : c₁ = _) => ?_
  subst hc₁
  refine .bind ((ensures_ok (paged_ok (by exact hmain))).mpr rfl) fun _ c₂ (hc₂ : c₂ = _) => ?_
  subst hc₂
  refine .bind ((ensures_ok (paged_ok (by exact hexits))).mpr rfl) fun _ c₃ (hc₃ : c₃ = _) =>
    .modify ?_
  extract_lets c₄ c₅ c₆
  have h₄ : Mapped (fun j q => { q with
      children := if f.parent = some j ∧ marked mask j = false then q.children.erase f.id
            else q.children }) c₃ c₄ := by
    unfold c₄
    cases hp : f.parent with
    | none => exact ⟨rfl, rfl, fun j => by simp⟩
    | some p =>
      have hp₀ : p ≠ 0 := fun hzero => hparent (hp.trans (congrArg some hzero))
      have hm := mapped_update c₃ hp₀ (¬ marked mask p = true) fun q =>
        { q with children := q.children.erase f.id }
      rw [ite_not] at hm
      refine hm.congr fun j q => ?_
      by_cases hj : j = p
      · subst hj
        cases marked mask j <;> simp
      · simp [hj, Ne.symm hj]
  have h₅ : Mapped (fun j q => { q with
      peers := if f.kind = .peer ∧ marked mask f.root = false ∧ j = f.root
          then q.peers.erase f.id else q.peers })
      c₄ c₅ := by
    have hm := mapped_update c₄ hroot (f.kind = .peer && !marked mask f.root) fun q =>
      { q with peers := q.peers.erase f.id }
    refine hm.congr fun j q => ?_
    by_cases hpeer : f.kind = .peer ∧ marked mask f.root = false ∧ j = f.root
    · rw [if_pos hpeer, if_pos (by simpa [and_assoc] using hpeer)]
    · rw [if_neg hpeer, if_neg (by simpa [and_assoc] using hpeer)]
  have hroots : c₆ = { c₅ with
      roots := if f.kind = .root ∧ c₅.roots[f.key]? = some f.id then c₅.roots.erase f.key
            else c₅.roots } := by
    unfold c₆
    by_cases hkey : f.kind = .root ∧ c₅.roots[f.key]? = some f.id
    · rw [if_pos hkey, if_pos (by simpa using hkey)]
    · rw [if_neg hkey, if_neg (by simpa using hkey)]
  have hsame := (h₄.trans h₅).same
  refine ⟨?_, ?_, ?_, ?_, ?_, ?_, ?_, fun j => ?_⟩
  · rw [update_backend, hroots, hsame, hc₃]
  · rw [update_region, hroots, hsame, hc₃]
  · rw [update_size, hroots]
    show c₅.fragments.size = _
    rw [(h₄.trans h₅).size, hc₃]
  · rw [update_guardCount, hroots, hsame, hc₃]
  · rw [update_guards, hroots, hsame, hc₃]
  · rw [update_registered, hroots, hsame, hc₃]
  · rw [update_roots, hroots, hsame, hc₃]
  · rw [fragment?_update hid, hroots]
    show (if j = f.id then (c₅.fragment? j).map _ else c₅.fragment? j) = _
    rw [(h₄.trans h₅).fragment, hc₃]
    show (if j = f.id then ((c.fragment? j).map _).map _ else (c.fragment? j).map _) = _
    unfold shed
    split
    · rw [Option.map_map]
      rfl
    · rfl

theorem shed_self (mask : Array Bool) (f q : Fragment) : Gone q (shed mask f f.id q) := by
  unfold shed
  rw [if_pos rfl]
  exact ⟨rfl, rfl, rfl, rfl, rfl, rfl, rfl, rfl, rfl⟩

theorem shed_marked {j : FragmentId} {q : Fragment} (hj : j ≠ f.id) (hD : marked mask j = true) :
    shed mask f j q = q := by
  unfold shed
  have hroot : ¬ (f.kind = .peer ∧ marked mask f.root = false ∧ j = f.root) := by
    rintro ⟨-, hroot, rfl⟩
    rw [hD] at hroot
    cases hroot
  rw [if_neg hj, if_neg hroot, if_neg (by simp [hD])]

theorem shed_unmarked {j : FragmentId} {q : Fragment} (hj : j ≠ f.id) (hD : marked mask j = false) :
    shed mask f j q = { q with
      children := if f.parent = some j then q.children.erase f.id else q.children
      peers := if f.kind = .peer ∧ j = f.root then q.peers.erase f.id else q.peers } := by
  have hpeer : (f.kind = .peer ∧ marked mask f.root = false ∧ j = f.root) ↔
      f.kind = .peer ∧ j = f.root := by
    constructor
    · rintro ⟨hkind, -, hroot⟩
      exact ⟨hkind, hroot⟩
    · rintro ⟨hkind, rfl⟩
      exact ⟨hkind, hD, rfl⟩
  unfold shed
  rw [if_neg hj]
  simp only [hD, and_true, hpeer]

theorem mem_foldl_erase {l : List GuardId} {s : Std.TreeSet GuardId} {g : GuardId} :
    g ∈ l.foldl (·.erase ·) s ↔ g ∈ s ∧ g ∉ l := by
  induction l generalizing s with
  | nil => simp
  | cons k l ih =>
    rw [List.foldl_cons, ih, Std.TreeSet.mem_erase, List.mem_cons, not_or]
    simp only [Std.compare_eq_iff_eq, ne_eq, eq_comm (a := k)]
    rw [and_assoc, and_left_comm]

/-- Whether a fragment is not dropped, or not yet. -/
def stays (D : FragmentId → Bool) (rest : List FragmentId) (k : FragmentId) : Bool :=
  !D k || rest.contains k

/-- Of the marked fragments those in `rest` are still there, and the others are gone. -/
structure Dropping (D : FragmentId → Bool) (rest : List FragmentId)
    (c c' : FragmentCache) : Prop where
  backend : c'.backend = c.backend
  size : c'.fragments.size = c.fragments.size
  count : c'.guardCount = c.guardCount
  guards : c'.guards = c.guards
  region : CodePages.Alike c.region c'.region
  held : c'.region.Held c'.pagesOf
  none : ∀ {id}, c.fragment? id = none → c'.fragment? id = none
  waiting : ∀ {id}, D id = true → id ∈ rest → c'.fragment? id = c.fragment? id
  gone : ∀ {id f}, c.fragment? id = some f → D id = true → id ∉ rest →
    ∃ f', c'.fragment? id = some f' ∧ Gone f f'
  kept : ∀ {id f}, c.fragment? id = some f → D id = false → ∃ children peers,
    c'.fragment? id = some { f with children, peers } ∧ (f.cached = true →
      children = f.children.filter (stays D rest) ∧ peers = f.peers.filter (stays D rest))
  roots : ∀ {k : LoopKey} {id : FragmentId}, c'.roots[k]? = some id →
    c.roots[k]? = some id ∧ (D id = true → id ∈ rest)
  registered : ∀ g, g ∈ c'.registered ↔
    g ∈ c.registered ∧ ∀ id f, c.fragment? id = some f → D id = true → id ∉ rest → g ∉ f.guards

/-- A fragment that is dropped leaves the list it was in. -/
theorem filter_stays {l rest : List FragmentId} {k : FragmentId} (hl : l.Nodup)
    (hD : D k = true) (hk : k ∉ rest)
    (P : Prop) [Decidable P] (hP : k ∈ l → P) :
    (if P then (l.filter (stays D (k :: rest))).erase k else l.filter (stays D (k :: rest))) =
      l.filter (stays D rest) := by
  have hsame : ∀ j, j ≠ k → stays D (k :: rest) j = stays D rest j := fun j hj => by
    simp [stays, hj]
  have hgone : stays D rest k = false := by simp [stays, hD, hk]
  split
  · rw [List.Nodup.erase_eq_filter (hl.filter _), List.filter_filter]
    refine List.filter_congr fun j _ => ?_
    by_cases hj : j = k
    · simp [hj, hgone]
    · simp [hj, hsame j hj]
  · next hnot =>
    refine List.filter_congr fun j hj => hsame j ?_
    rintro rfl
    exact hnot (hP hj)

theorem drop_step {rest : List FragmentId} {c₁ : FragmentCache} (ht : Trees c)
    (hf : c.fragment? f.id = some f)
    (hD : marked mask f.id = true) (hrest : f.id ∉ rest)
    (h : Dropping (marked mask) (f.id :: rest) c c₁) :
    Ensures E (drop mask f) c₁ fun _ c₂ => Dropping (marked mask) rest c c₂ := by
  have hf₁ : c₁.fragment? f.id = some f := (h.waiting hD List.mem_cons_self).trans hf
  obtain ⟨r₁, r₂, hmain, hexits, halike, hheld⟩ := h.held.vacate f.id
  rw [pagesOf_eq hf₁] at hmain hexits
  obtain ⟨hroot, hparent⟩ := ht.lineage hf
  refine (drop_ensures (fragment?_eq_some.mp hf).1 hroot hparent hmain hexits).mono fun _ c₂ hd =>
    ?_
  refine ⟨hd.backend.trans h.backend, hd.size.trans h.size, hd.count.trans h.count,
    hd.guards.trans h.guards, ?_, ?_,
    fun {id} hnone => ?_, fun {id} hDid hid => ?_, fun {id f₀} hf₀ hDid hid =>
      ?_, fun {id f₀} hf₀ hDid => ?_,
    fun {k id} hk => ?_, fun g => ?_⟩
  · rw [hd.region]
    exact h.region.trans halike
  · have hpages : c₂.pagesOf = fun j side => if j = f.id then [] else c₁.pagesOf j side := by
      funext j side
      rw [FragmentCache.pagesOf, FragmentCache.pagesOf, hd.fragment]
      unfold shed
      by_cases hj : j = f.id
      · rw [if_pos hj]
        cases c₁.fragment? j with
        | none => rfl
        | some q => cases side <;> simp [hj, Fragment.pages]
      · rw [if_neg hj]
        cases c₁.fragment? j with
        | none => rfl
        | some q => cases side <;> simp [hj, Fragment.pages]
    rw [hpages, hd.region]
    exact hheld
  · rw [hd.fragment, h.none hnone]
    rfl
  · rw [hd.fragment, h.waiting hDid (List.mem_cons_of_mem _ hid)]
    have hne : id ≠ f.id := fun heq => hrest (heq ▸ hid)
    cases c.fragment? id with
    | none => rfl
    | some q => exact congrArg some (shed_marked hne hDid)
  · by_cases hne : id = f.id
    · subst hne
      rw [hf] at hf₀
      cases hf₀
      exact ⟨_, by rw [hd.fragment, hf₁]; rfl, shed_self mask f f⟩
    · obtain ⟨f', hf', hgone⟩ := h.gone hf₀ hDid fun hmem =>
        hid ((List.mem_cons.mp hmem).resolve_left hne)
      exact ⟨f', by rw [hd.fragment, hf']; exact congrArg some (shed_marked hne hDid), hgone⟩
  · have hne : id ≠ f.id := by
      rintro rfl
      rw [hD] at hDid
      cases hDid
    obtain ⟨children, peers, hf', hlists⟩ := h.kept hf₀ hDid
    refine ⟨_, _, by rw [hd.fragment, hf']; exact congrArg some (shed_unmarked hne hDid),
      fun hcached => ?_⟩
    obtain ⟨rfl, rfl⟩ := hlists hcached
    have hc₀ := cached?_eq_some.mpr ⟨hf₀, hcached⟩
    constructor
    · refine filter_stays (ht.children hc₀).1 hD hrest _ fun hmem => ?_
      obtain ⟨q, hq, -, hparent⟩ := (ht.children hc₀).2 _ hmem
      rw [fragment?_of_cached hq] at hf
      cases hf
      exact hparent
    · refine filter_stays (ht.peers hc₀).1 hD hrest _ fun hmem => ?_
      obtain ⟨q, hq, hkind, hroot⟩ := (ht.peers hc₀).2 _ hmem
      rw [fragment?_of_cached hq] at hf
      cases hf
      exact ⟨hkind, hroot.symm⟩
  · rw [hd.roots] at hk
    have hk₁ : c₁.roots[k]? = some id := by
      split at hk
      · rw [Std.TreeMap.getElem?_erase] at hk
        split at hk
        · cases hk
        · exact hk
      · exact hk
    obtain ⟨hk₀, hmem⟩ := h.roots hk₁
    refine ⟨hk₀, fun hDid => (List.mem_cons.mp (hmem hDid)).resolve_left ?_⟩
    rintro rfl
    obtain ⟨q, hq, hkind, rfl⟩ := ht.roots hk₀
    rw [fragment?_of_cached hq] at hf
    cases hf
    rw [if_pos ⟨hkind, hk₁⟩, Std.TreeMap.getElem?_erase, if_pos (Std.compare_eq_iff_eq.mpr rfl)] at hk
    cases hk
  · rw [hd.registered, mem_foldl_erase, h.registered]
    constructor
    · rintro ⟨⟨hg, hall⟩, hmine⟩
      refine ⟨hg, fun id f₀ hf₀ hDid hid => ?_⟩
      by_cases hne : id = f.id
      · subst hne
        rw [hf] at hf₀
        cases hf₀
        exact hmine
      · exact hall id f₀ hf₀ hDid fun hmem => hid ((List.mem_cons.mp hmem).resolve_left hne)
    · rintro ⟨hg, hall⟩
      exact ⟨⟨hg, fun id f₀ hf₀ hDid hid => hall id f₀ hf₀ hDid fun hmem =>
        hid (List.mem_cons_of_mem _ hmem)⟩,
        hall f.id f hf hD hrest⟩

theorem Trees.dropping (ht : Trees c) (hh : Housed c) {ids : List FragmentId}
    (hids : ∀ id f, c.fragment? id = some f → D id = true → id ∈ ids) : Dropping D ids c c where
  backend := rfl
  size := rfl
  count := rfl
  guards := rfl
  region := .refl _
  held := hh.held
  none := id
  waiting _ _ := rfl
  gone hf hD hnot := absurd (hids _ _ hf hD) hnot
  kept := fun {id f} hf hD => by
    refine ⟨f.children, f.peers, hf, fun hcached => ?_⟩
    have hc := cached?_eq_some.mpr ⟨hf, hcached⟩
    have hstays : ∀ k q, c.cached? k = some q → stays D ids k = true := fun k q hq => by
      unfold stays
      cases hDk : D k with
      | false => rfl
      | true => simpa using hids k q (fragment?_of_cached hq) hDk
    constructor
    · refine (List.filter_eq_self.mpr fun k hk => ?_).symm
      obtain ⟨q, hq, -⟩ := (ht.children hc).2 k hk
      exact hstays k q hq
    · refine (List.filter_eq_self.mpr fun k hk => ?_).symm
      obtain ⟨q, hq, -⟩ := (ht.peers hc).2 k hk
      exact hstays k q hq
  roots hk := ⟨hk, fun hD => let ⟨f, hf, _⟩ := ht.roots hk; hids _ f (fragment?_of_cached hf) hD⟩
  registered g := ⟨fun hg => ⟨hg, fun id f hf hD hnot => absurd (hids id f hf hD) hnot⟩, And.left⟩

theorem Dropping.pruned (h : Dropping D [] c c') : Pruned D c c' := by
  have hstays : stays D [] = fun k => !D k := funext fun k => by simp [stays]
  refine ⟨h.backend, h.size, h.none, fun hf hD => h.gone hf hD nofun, fun hf hD => ?_, fun hk => ?_,
    fun {g r} hr => ⟨r.target, by rw [h.guards, hr]⟩, fun {g r} hr =>
      ⟨r, by rw [← h.guards, hr]⟩, h.count⟩
  · obtain ⟨children, peers, hf', hlists⟩ := h.kept hf hD
    rw [hstays] at hlists
    exact ⟨children, peers, hf', hlists⟩
  · obtain ⟨hk₀, hmem⟩ := h.roots hk
    refine ⟨hk₀, ?_⟩
    rw [← Bool.not_eq_true]
    exact fun hD => absurd (hmem hD) nofun

/-- All marked fragments are dropped. -/
theorem dropAll_ensures {l : List Fragment} {c₁ : FragmentCache} (ht : Trees c)
    (hmem : ∀ f ∈ l, c.fragment? f.id = some f ∧ marked mask f.id = true)
    (hnodup : (l.map (·.id)).Nodup)
    (h : Dropping (marked mask) (l.map (·.id)) c c₁) :
    Ensures E (l.forM (drop mask)) c₁ fun _ c' => Dropping (marked mask) [] c c' := by
  induction l generalizing c₁ with
  | nil => exact h
  | cons f l ih =>
    obtain ⟨hf, hD⟩ := hmem f List.mem_cons_self
    rw [List.map_cons, List.nodup_cons] at hnodup
    refine .bind (drop_step ht hf hD hnodup.1 h) fun _ c₂ h₂ => ?_
    exact ih (fun f hf => hmem f (List.mem_cons_of_mem _ hf)) hnodup.2 h₂

end drop

/-! ### Exits that are sent back -/

/-- Of the exits of `all` those of `rest` are not sent back yet. -/
structure Unpatched (all rest : List Guard) (c c' : FragmentCache) : Prop where
  same : c' = { c with guards := c'.guards, region := { c.region with mem := c'.region.mem } }
  guards : ∀ g : GuardId, c'.guards[g]? = c.guards[g]? ∨
    ∃ r, c.guards[g]? = some r ∧ c'.guards[g]? = some { r with target := .bailout }
  done : ∀ r ∈ all, r ∈ rest ∨ ∃ r', c'.guards[r.id]? = some r' ∧ r'.target = .bailout

theorem unpatch_step {all rest : List Guard} {g : Guard} {c₁ : FragmentCache} (hs : Sound p q c₁)
    (hg : c.guards[g.id]? = some g ∧ g.id ∈ c.registered) (h : Unpatched all (g :: rest) c c₁) :
    Ensures Harmless (unpatch g) c₁ fun _ c₂ => Sound p q c₂ ∧ Unpatched all rest c c₂ := by
  obtain ⟨r, hr, hsite⟩ : ∃ r, c₁.guards[g.id]? = some r ∧ r.site = g.site := by
    rcases h.guards g.id with hsame | ⟨r, hr, hr'⟩
    · exact ⟨g, hsame.trans hg.1, rfl⟩
    · rw [hg.1] at hr
      cases hr
      exact ⟨_, hr', rfl⟩
  refine .get ?_
  unfold Ensures
  rw [redirect_eq]
  cases hpatch : c₁.backend.patch c₁.region.mem g.site c₁.region.bailout with
  | error e => exact tame_patch hpatch
  | ok mem =>
    have hregistered : g.id ∈ c₁.registered := by
      rw [h.same]
      exact hg.2
    refine ⟨hs.redirected hr (fun _ _ => hregistered) rfl (fun k hk => nomatch hk) (hsite ▸ hpatch),
      ?_, fun j => ?_, fun r' hr' => ?_⟩
    · show FragmentCache.redirected c₁ g.id .bailout mem = _
      unfold FragmentCache.redirected
      dsimp only
      rw [h.same]
    · rw [getElem?_redirected]
      split
      · next hj =>
        subst hj
        rcases h.guards g.id with hsame | ⟨r', hr', hr''⟩
        · exact .inr ⟨g, hg.1, by rw [hsame, hg.1]; rfl⟩
        · exact .inr ⟨r', hr', by rw [hr'']; rfl⟩
      · exact h.guards j
    · rcases h.done r' hr' with hmem | ⟨r'', hr'', htarget⟩
      · rcases List.mem_cons.mp hmem with rfl | hmem
        · exact .inr ⟨_, by rw [getElem?_redirected, if_pos rfl, hr]; rfl, rfl⟩
        · exact .inl hmem
      · refine .inr ?_
        rw [getElem?_redirected]
        split
        · exact ⟨_, by rw [hr'']; rfl, rfl⟩
        · exact ⟨r'', hr'', htarget⟩

theorem unpatchAll_ensures {all rest : List Guard} {c₁ : FragmentCache} (hs : Sound p q c₁)
    (hall : ∀ g ∈ rest, c.guards[g.id]? = some g ∧ g.id ∈ c.registered)
    (h : Unpatched all rest c c₁) :
    Ensures Harmless (rest.forM unpatch) c₁ fun _ c' => Sound p q c' ∧ Unpatched all [] c c' := by
  induction rest generalizing c₁ with
  | nil => exact ⟨hs, h⟩
  | cons g rest ih =>
    refine .bind (unpatch_step hs (hall g List.mem_cons_self) h) fun _ c₂ ⟨hs₂, h₂⟩ => ?_
    exact ih hs₂ (fun g hg => hall g (List.mem_cons_of_mem _ hg)) h₂

theorem Trees.mem_registeredGuards (ht : Trees c) {g : Guard} :
    g ∈ c.registeredGuards ↔ c.guards[g.id]? = some g ∧ g.id ∈ c.registered := by
  unfold registeredGuards
  rw [List.mem_filterMap]
  constructor
  · rintro ⟨id, hid, hg⟩
    obtain rfl := (ht.records hg).1
    exact ⟨hg, Std.TreeSet.mem_toList.mp hid⟩
  · rintro ⟨hg, hid⟩
    exact ⟨g.id, Std.TreeSet.mem_toList.mpr hid, hg⟩

/-! ### A fragment and all that depends on it -/

theorem Unpatched.pruned {all : List Guard} {c₁ : FragmentCache} (h : Unpatched all [] c c₁)
    (hp : Pruned D c₁ c') :
    Pruned D c c' := by
  have hfragment : ∀ j, c₁.fragment? j = c.fragment? j := fun j => by
    rw [h.same]
    rfl
  refine ⟨?_, ?_, fun hf => hp.none (hfragment _ ▸ hf), fun hf => hp.gone ((hfragment _).trans hf),
    fun hf => hp.kept ((hfragment _).trans hf), fun hk => ?_, fun {g r} hr =>
      ?_, fun {g r} hr => ?_, ?_⟩
  · rw [hp.backend, h.same]
  · rw [hp.size, h.same]
  · obtain ⟨hk₁, hD⟩ := hp.roots hk
    rw [h.same] at hk₁
    exact ⟨hk₁, hD⟩
  · rcases h.guards g with hsame | ⟨r', hr', hr''⟩
    · exact hp.old (hsame.trans hr)
    · obtain ⟨target, htarget⟩ := hp.old hr''
      rw [hr] at hr'
      cases hr'
      exact ⟨target, htarget⟩
  · obtain ⟨r₁, hr₁⟩ := hp.new hr
    rcases h.guards g with hsame | ⟨r', hr', -⟩
    · exact ⟨r₁, hsame.symm.trans hr₁⟩
    · exact ⟨r', hr'⟩
  · rw [hp.count, h.same]

/-- A fragment is dropped with all that depends on it, and what is left is sound. -/
theorem invalidate_ensures (hs : Sound p q c)
    (hp : p → ∃ f, c.fragment? id = some f ∧ (f.cached = true ∨ Spent f)) :
    Ensures Harmless (invalidate id) c fun _ c' =>
    Sound p q c' ∧ Pruned (marked (c.dependents id)) c c' := by
  have ht := hs.trees
  refine .get ?_
  let mask := c.dependents id
  let all := c.registeredGuards.filter (c.mustUnpatch mask)
  have hall : ∀ g ∈ all, c.guards[g.id]? = some g ∧ g.id ∈ c.registered := fun g hg =>
    ht.mem_registeredGuards.mp (List.mem_filter.mp hg).1
  have hnothing : Unpatched all all c c := ⟨rfl, fun _ => .inl rfl, fun _ => .inl⟩
  refine .bind (unpatchAll_ensures hs hall hnothing) fun _ c₁ hc₁ => ?_
  obtain ⟨hs₁, h₁⟩ := hc₁
  have hfragment : ∀ j, c₁.fragment? j = c.fragment? j := fun j => by
    rw [h₁.same]
    rfl
  have hcached : ∀ j, c₁.cached? j = c.cached? j := fun j => by
    rw [cached?, cached?, hfragment]
  have hclosed : Closed c₁ (marked mask) := by
    have hc := closed_dependents ht id
    refine ⟨fun hf => ?_, fun hf => ?_, fun hf => ?_⟩
    · exact hc.children (hcached _ ▸ hf)
    · exact hc.peers (hcached _ ▸ hf)
    · exact hc.target (hcached _ ▸ hf)
  let gone := c.fragments.toList.filter fun f => marked mask f.id
  have hgone : ∀ f ∈ gone, c₁.fragment? f.id = some f ∧ marked mask f.id = true := fun f hf => by
    obtain ⟨hf, hD⟩ := List.mem_filter.mp hf
    exact ⟨(hfragment _).trans (ht.fragment?_of_mem hf), hD⟩
  have hnodup : (gone.map (·.id)).Nodup :=
    ht.nodup_ids.sublist (List.Sublist.map _ List.filter_sublist)
  have hstart : Dropping (marked mask) (gone.map (·.id)) c₁ c₁ := by
    refine hs₁.trees.dropping hs₁.housed fun j f hf hD => ?_
    rw [hfragment] at hf
    have hj := ht.numbered hf
    exact List.mem_map.mpr ⟨f, List.mem_filter.mpr ⟨mem_of_fragment? hf, hj ▸ hD⟩, hj⟩
  refine .bind (dropAll_ensures hs₁.trees hgone hnodup hstart) fun _ c' h => .pure ?_
  have hpruned := h.pruned
  refine ⟨hs₁.pruned hclosed hpruned h.region h.held h.guards
    (fun g => by simpa using h.registered g)
    (fun hp' j f hf hD => ?_) fun hq hlt g r k hg hr htarget => ?_, h₁.pruned hpruned⟩
  · obtain ⟨f₀, hf₀, hfate⟩ := hp hp'
    exact cached_of_dependent ht hf₀ hfate (hfragment j ▸ hf) hD
  -- an exit from a fragment that stays into one that goes would have been sent back
  obtain ⟨hg₁, hstays⟩ := (h.registered g).mp hg
  obtain ⟨hrid, f, hf, hmem, -⟩ := hs₁.trees.records hr
  subst hrid
  obtain ⟨q', hq', -⟩ := (hs₁.wired hq hlt).child hr hg₁ htarget
  rw [← Bool.not_eq_true]
  intro hD
  have hsource : marked mask r.source = false := by
    rw [← Bool.not_eq_true]
    exact fun hD => hstays _ f hf hD List.not_mem_nil hmem
  have hr₀ : c.guards[r.id]? = some r := by
    rcases h₁.guards r.id with hsame | ⟨r₀, -, hr₀⟩
    · exact hsame.symm.trans hr
    · rw [hr] at hr₀
      cases hr₀
      cases htarget
  have hmust : c.mustUnpatch mask r = true := by
    unfold mustUnpatch
    rw [htarget]
    dsimp only
    rw [hcached] at hq'
    have hk : (c.cached? k).any (fun f => marked mask f.id) = true := by
      rw [hq', Option.any_some, ht.numbered (fragment?_of_cached hq')]
      exact hD
    have hs : (c.cached? r.source).any (fun f => marked mask f.id) = false := by
      cases hf : c.cached? r.source with
      | none => rfl
      | some f =>
        rw [Option.any_some, ht.numbered (fragment?_of_cached hf)]
        exact hsource
    rw [hk, hs]
    rfl
  have hregistered : r.id ∈ c.registered := by
    rw [h₁.same] at hg₁
    exact hg₁
  have hin : r ∈ all := List.mem_filter.mpr ⟨ht.mem_registeredGuards.mpr ⟨hr₀, hregistered⟩, hmust⟩
  obtain ⟨r', hr', hbailout⟩ := (h₁.done r hin).resolve_left fun h => by cases h
  rw [hr] at hr'
  cases hr'
  rw [htarget] at hbailout
  cases hbailout

/-! ### A branch that was not compiled -/

/-- What becomes of fragment `j` when `f` is dropped. -/
def lop (f : Fragment) (j : FragmentId) (q : Fragment) : Fragment :=
  let q := { q with children := if f.parent = some j then q.children.erase f.id else q.children }
  if j = f.id then { q with cached := false, state := .invalidated } else q

theorem discard_maps (ht : Trees c) (hf : c.cached? id = some f) :
    Ensures Harmless (discard f) c fun _ c' =>
      f.kind = .branch ∧ f.state ≠ .compiled ∧ Mapped (lop f) c c' := by
  have hid := ht.numbered (fragment?_of_cached hf)
  have hlineage := ht.lineage (fragment?_of_cached hf)
  unfold Ensures discard
  by_cases hkind : (decide (f.kind ≠ .branch) || decide (f.state = .compiled)) = true
  · rw [if_pos hkind]
    rintro _ _ ⟨⟩
  rw [if_neg hkind]
  simp only [Bool.or_eq_true, decide_eq_true_eq, not_or, ne_eq, Classical.not_not] at hkind
  extract_lets c₁
  refine ⟨hkind.1, hkind.2, ?_⟩
  have h₁ : Mapped (fun j q => { q with
      children := if f.parent = some j then q.children.erase f.id else q.children }) c c₁ := by
    unfold c₁
    cases hp : f.parent with
    | none => exact ⟨rfl, rfl, fun j => by simp⟩
    | some p =>
      have hp₀ : p ≠ 0 := fun hzero => hlineage.2 (hp.trans (congrArg some hzero))
      have hm := mapped_update c hp₀ True fun q => { q with children := q.children.erase f.id }
      rw [if_pos trivial] at hm
      refine hm.congr fun j q => ?_
      by_cases hj : j = p
      · simp [hj]
      · simp [hj, Ne.symm hj]
  have h₂ := h₁.trans (mapped_update c₁ (fragment?_eq_some.mp (hid ▸ fragment?_of_cached hf)).1 True
    fun f => { f with cached := false, state := .invalidated })
  rw [if_pos trivial] at h₂
  refine h₂.congr fun j q => ?_
  unfold lop
  by_cases hj : j = f.id
  · simp [hj]
  · simp [hj]

/-- No branch starts at a fragment without code. -/
theorem Trees.childless (ht : Trees c) (hf : c.cached? id = some f) (hstate : f.state ≠ .compiled) :
    f.children = [] := by
  refine List.eq_nil_iff_forall_not_mem.mpr fun k hk => ?_
  obtain ⟨q, hq, hkind, hparent⟩ := (ht.children hf).2 k hk
  obtain ⟨p', q', hp', -, hq', hcompiled, -⟩ := ht.branch hq hkind
  rw [hparent] at hp'
  cases hp'
  rw [hf] at hq'
  cases hq'
  exact hstate hcompiled

section

variable (ht : Trees c) (hf : c.cached? id = some f) (hbranch : f.kind = .branch)
include hf hbranch

omit hbranch in
theorem eq_of_cached {j : FragmentId} {q : Fragment} (hq : c.fragment? j = some q)
    (hj : (j == id) = true) : q = f := by
  rw [beq_iff_eq] at hj
  subst hj
  rw [fragment?_of_cached hf] at hq
  exact (Option.some.inj hq).symm

include ht

/-- Nothing depends on a branch without code. -/
theorem Trees.closed_branch (hstate : f.state ≠ .compiled) : Closed c (· == id) := by
  refine ⟨fun {j f' k} hf' hj hk => ?_, fun {j f' k} hf' hj hroot _ => ?_,
    fun {j f' t} hf' htarget ht' => ?_⟩
  · rw [eq_of_cached hf (fragment?_of_cached hf') hj, ht.childless hf hstate] at hk
    cases hk
  · obtain rfl := eq_of_cached hf (fragment?_of_cached hf') hj
    rw [hroot] at hbranch
    cases hbranch
  · obtain ⟨q', hq', hcompiled⟩ := ht.target hf' htarget
    obtain rfl := eq_of_cached hf (fragment?_of_cached hq') ht'
    exact absurd hcompiled hstate

/-- No list holds a branch that was dropped. -/
theorem Mapped.pruned_branch (h : Mapped (lop f) c c') (hpages : ∀ side, f.pages side = []) :
    Pruned (· == id) c c' := by
  have hid := ht.numbered (fragment?_of_cached hf)
  refine ⟨?_, h.size, fun {j} hnone => ?_, fun {j f'} hf' hj => ?_, fun {j f'} hf' hj => ?_,
    fun {k j} hk => ?_, fun {g r} hr => ⟨r.target, ?_⟩, fun {g r} hr => ⟨r, ?_⟩, ?_⟩
  · rw [h.same]
  · rw [h.fragment, hnone]
    rfl
  · obtain rfl := eq_of_cached hf hf' hj
    rw [beq_iff_eq] at hj
    subst hj
    refine ⟨lop f' j f', by rw [h.fragment, hf', Option.map_some], ?_⟩
    unfold lop
    rw [if_pos hid.symm]
    exact ⟨rfl, rfl, rfl, rfl, rfl, hpages .main, hpages .exits, rfl, rfl⟩
  · have hne : j ≠ id := by simpa using hj
    refine ⟨if f.parent = some j then f'.children.erase id else f'.children, f'.peers, ?_,
      fun hcached => ?_⟩
    · rw [h.fragment, hf']
      simp [lop, hid, hne]
    have hc := cached?_eq_some.mpr ⟨hf', hcached⟩
    have hchildren := ht.children hc
    have hpeers := ht.peers hc
    constructor
    · split
      · rw [List.Nodup.erase_eq_filter hchildren.1]
        rfl
      · next hparent =>
        refine (List.filter_eq_self.mpr fun k hk => ?_).symm
        obtain ⟨q', hq', -, hparent'⟩ := hchildren.2 k hk
        rw [Bool.not_eq_true', ← Bool.not_eq_true]
        exact fun hk => hparent (eq_of_cached hf (fragment?_of_cached hq') hk ▸ hparent')
    · refine (List.filter_eq_self.mpr fun k hk => ?_).symm
      obtain ⟨q', hq', hkind', -⟩ := hpeers.2 k hk
      rw [Bool.not_eq_true', ← Bool.not_eq_true]
      intro hk
      rw [eq_of_cached hf (fragment?_of_cached hq') hk, hbranch] at hkind'
      cases hkind'
  · rw [h.same] at hk
    refine ⟨hk, ?_⟩
    obtain ⟨q', hq', hroot, -⟩ := ht.roots hk
    rw [← Bool.not_eq_true]
    intro hj
    rw [eq_of_cached hf (fragment?_of_cached hq') hj, hbranch] at hroot
    cases hroot
  · rw [h.same]
    exact hr
  · rw [h.same] at hr
    exact hr
  · rw [h.same]

end

theorem Mapped.pagesOf_lop (h : Mapped (lop f) c c') : c'.pagesOf = c.pagesOf := by
  funext j side
  rw [FragmentCache.pagesOf, FragmentCache.pagesOf, h.fragment]
  cases c.fragment? j with
  | none => rfl
  | some q =>
    simp only [Option.map_some, Option.elim_some]
    unfold lop
    dsimp only
    split <;> cases side <;> rfl

/-- A branch without code is dropped; nothing depends on it. -/
theorem discard_ensures (hs : Sound p q c) (hf : c.cached? id = some f) :
    Ensures Harmless (discard f) c fun _ c' => Sound p q c' ∧ Pruned (· == id) c c' ∧
      ∃ f', c'.fragment? id = some f' ∧ Spent f' := by
  have ht := hs.trees
  have hid := ht.numbered (fragment?_of_cached hf)
  refine (discard_maps ht hf).mono fun _ c' ⟨hbranch, hstate, hmapped⟩ => ?_
  have hpages : ∀ side, f.pages side = [] := fun side =>
    Classical.byContradiction fun hne => hstate (hs.housed.lodged (fragment?_of_cached hf) hne).2
  have hbare : f.guards = [] := ht.bare hf hstate
  have hclosed := ht.closed_branch hf hbranch hstate
  have hpruned := hmapped.pruned_branch ht hf hbranch hpages
  have hgone : c'.fragment? id = some (lop f id f) := by
    rw [hmapped.fragment, fragment?_of_cached hf, Option.map_some]
  refine ⟨hs.pruned hclosed hpruned ?_ ?_ ?_ (fun g => ?_) (fun _ j q' hq' hj => ?_)
    fun hq hlt g r k hg hr htarget => ?_, hpruned, _, hgone, ?_⟩
  · rw [hmapped.same]
    exact .refl _
  · rw [hmapped.pagesOf_lop, hmapped.same]
    exact hs.housed.held
  · rw [hmapped.same]
  · rw [hmapped.same]
    refine ⟨fun hg => ⟨hg, fun j q' hq' hj => ?_⟩, And.left⟩
    rw [eq_of_cached hf hq' hj, hbare]
    rintro ⟨⟩
  · rw [eq_of_cached hf hq' hj]
    exact .inl (cached?_eq_some.mp hf).2
  · obtain ⟨q', hq', -, hcompiled, -⟩ :=
      (hs.wired hq hlt).child hr (by rw [hmapped.same] at hg; exact hg) htarget
    rw [← Bool.not_eq_true]
    exact fun hk => hstate (eq_of_cached hf (fragment?_of_cached hq') hk ▸ hcompiled)
  · unfold lop
    rw [if_pos hid.symm]
    refine ⟨hbare, ?_, fun hroot => ?_⟩
    · show (if _ then _ else _) = _
      rw [ht.childless hf hstate]
      split <;> rfl
    · exact FragmentKind.noConfusion (hbranch.symm.trans hroot)

/-! ### Everything -/

/-- Of the cached fragments in a list no root is left, and no other fragment was changed but
dropped. -/
theorem invalidateRoots_ensures {l : List FragmentId} (hs : Sound p q c)
    (hl : ∀ id ∈ l, ∃ f, c.fragment? id = some f ∧ (f.cached = true ∨ f.state = .invalidated)) :
    Ensures Harmless (invalidateRoots l) c fun _ c' => Sound p q c' ∧ c'.backend = c.backend ∧
      (∀ id f', c'.cached? id = some f' → ∃ f, c.cached? id = some f ∧ f'.kind = f.kind) ∧
      ∀ id ∈ l, ∀ f', c'.cached? id = some f' → f'.kind ≠ .root := by
  induction l generalizing c with
  | nil => exact ⟨hs, rfl, fun id f' hf' => ⟨f', hf', rfl⟩, nofun⟩
  | cons id l ih =>
    obtain ⟨f, hf, hfate⟩ := hl id List.mem_cons_self
    have hrest : ∀ j ∈ l, ∃ f, c.fragment? j = some f ∧
        (f.cached = true ∨ f.state = .invalidated) := fun j hj =>
      hl j (List.mem_cons_of_mem _ hj)
    unfold invalidateRoots
    refine .get ?_
    rw [hf]
    extract_lets next
    -- the others are dealt with in a cache where this one is no root any more
    have hnext : ∀ gone c₁, Sound p q c₁ → c₁.backend = c.backend →
        (∀ j f₁, c₁.cached? j = some f₁ → ∃ f, c.cached? j = some f ∧ f₁.kind = f.kind) →
        (∀ j ∈ l, ∃ f, c₁.fragment? j = some f ∧ (f.cached = true ∨ f.state = .invalidated)) →
        (∀ f₁, c₁.cached? id = some f₁ → f₁.kind ≠ .root) →
          Ensures Harmless (next gone) c₁ fun _ c' => Sound p q c' ∧ c'.backend = c.backend ∧
          (∀ j f', c'.cached? j = some f' → ∃ f, c.cached? j = some f ∧ f'.kind = f.kind) ∧
          ∀ j ∈ id :: l, ∀ f', c'.cached? j = some f' → f'.kind ≠ .root := by
      intro gone c₁ hs₁ hbackend₁ hback₁ hl₁ hid₁
      refine .bind (ih hs₁ hl₁) fun _ c' ⟨hs', hbackend', hback', hroots'⟩ =>
        .pure ⟨hs', hbackend'.trans hbackend₁, fun j f' hf' => ?_, fun j hj f' hf' => ?_⟩
      · obtain ⟨f₁, hf₁, hkind₁⟩ := hback' j f' hf'
        obtain ⟨f, hf, hkind⟩ := hback₁ j f₁ hf₁
        exact ⟨f, hf, hkind₁.trans hkind⟩
      · rcases List.mem_cons.mp hj with rfl | hj
        · obtain ⟨f₁, hf₁, hkind₁⟩ := hback' j f' hf'
          exact hkind₁ ▸ hid₁ f₁ hf₁
        · exact hroots' j hj f' hf'
    dsimp only
    split
    · next hskip =>
      refine hnext [] c hs rfl (fun j f hf => ⟨f, hf, rfl⟩) hrest fun f₁ hf₁ hroot => ?_
      rw [fragment?_of_cached hf₁] at hf
      cases hf
      simp [hroot, hs.trees.live hf₁] at hskip
    · next hdrop =>
      have hcached : f.cached = true := hfate.resolve_right fun hstate => hdrop (by simp [hstate])
      have hc := cached?_eq_some.mpr ⟨hf, hcached⟩
      refine .bind (invalidate_ensures hs fun _ => ⟨f, hf, .inl hcached⟩) fun gone c₁ ⟨hs₁, hp⟩ =>
        ?_
      refine hnext gone c₁ hs₁ hp.backend (fun j f₁ hf₁ => ?_) (fun j hj => ?_) fun f₁ hf₁ => ?_
      · obtain ⟨f, hf, -, rfl⟩ := hp.cached_back hf₁
        exact ⟨f, hf, rfl⟩
      · obtain ⟨f, hf, hfate⟩ := hrest j hj
        cases hD : marked (c.dependents id) j with
        | true =>
          obtain ⟨f', hf', hgone⟩ := hp.gone hf hD
          exact ⟨f', hf', .inr hgone.state⟩
        | false =>
          obtain ⟨children, peers, hf', -⟩ := hp.kept hf hD
          exact ⟨_, hf', hfate⟩
      · obtain ⟨-, -, hD, -⟩ := hp.cached_back hf₁
        rw [marked_dependents_self hf] at hD
        cases hD

theorem mem_toList (hf : c.cached? id = some f) : f ∈ c.toList :=
  List.mem_filter.mpr ⟨mem_of_fragment? (fragment?_of_cached hf), (cached?_eq_some.mp hf).2⟩

/-- The cache after everything was given up. -/
def emptied (c : FragmentCache) : FragmentCache :=
  { c with
    region := c.region.reset
    registered := {}
    roots := {}
    fragments := c.fragments.map fun f => { f with cached := false } }

theorem fragment?_emptied (c : FragmentCache) (j : FragmentId) :
    c.emptied.fragment? j = (c.fragment? j).map fun f => { f with cached := false } := by
  unfold fragment? emptied
  by_cases hj : j = 0
  · simp [hj]
  · rw [if_neg hj, if_neg hj, Array.getElem?_map]

theorem emptied_back (hf' : c.emptied.fragment? id = some f') :
    ∃ f, c.fragment? id = some f ∧ f' = { f with cached := false } := by
  rw [fragment?_emptied, Option.map_eq_some_iff] at hf'
  obtain ⟨f, hf, rfl⟩ := hf'
  exact ⟨f, hf, rfl⟩

theorem cached?_emptied (c : FragmentCache) (id : FragmentId) : c.emptied.cached? id = none := by
  refine Option.eq_none_iff_forall_ne_some.mpr fun f' hf' => ?_
  obtain ⟨hf', hcached⟩ := cached?_eq_some.mp hf'
  obtain ⟨f, -, rfl⟩ := emptied_back hf'
  cases hcached

theorem not_cached_emptied (hf' : c.emptied.cached? id = some f') : False := by
  rw [cached?_emptied] at hf'
  cases hf'

theorem Trees.emptied (ht : Trees c) : Trees c.emptied where
  size := by simpa [FragmentCache.emptied] using ht.size
  numbered hf' := by
    obtain ⟨f, hf, rfl⟩ := emptied_back hf'
    have hid := ht.numbered hf
    exact hid
  lineage hf' := by
    obtain ⟨f, hf, rfl⟩ := emptied_back hf'
    have hlineage := ht.lineage hf
    exact hlineage
  live hf' := (not_cached_emptied hf').elim
  root hf' := (not_cached_emptied hf').elim
  self hf' := (not_cached_emptied hf').elim
  peer hf' := (not_cached_emptied hf').elim
  branch hf' := (not_cached_emptied hf').elim
  anchored hf' := (not_cached_emptied hf').elim
  children hf' := (not_cached_emptied hf').elim
  peers hf' := (not_cached_emptied hf').elim
  target hf' := (not_cached_emptied hf').elim
  ends hf' := (not_cached_emptied hf').elim
  bare hf' := (not_cached_emptied hf').elim
  roots hk := by simp [FragmentCache.emptied] at hk
  records hr := by
    obtain ⟨hid, f, hf, hmem, -⟩ := ht.records hr
    exact ⟨hid, { f with cached := false }, by rw [fragment?_emptied, hf]; rfl, hmem, nofun⟩
  numbers hr := ht.numbers hr

/-- Where no fragment is cached, the code region may be given up. -/
theorem Sound.emptied (hs : Sound p q c)
    (hnone : ∀ id, c.cached? id = none) : Sound p q c.emptied := by
  have hregistered : ∀ {g}, g ∉ c.emptied.registered := fun {g} => Std.TreeSet.not_mem_emptyc
  have hpages : c.emptied.pagesOf = fun _ _ => [] := by
    funext j side
    rw [FragmentCache.pagesOf, fragment?_emptied]
    cases hf : c.fragment? j with
    | none => rfl
    | some f =>
      have hnil : f.pages side = [] := Classical.byContradiction fun hne =>
        Option.some_ne_none f
          ((cached?_eq_some.mpr ⟨hf, (hs.housed.lodged hf hne).1⟩).symm.trans (hnone j))
      cases side <;> exact hnil
  refine ⟨hs.trees.emptied, ⟨?_, fun {j f' side} hf' hne => ?_⟩,
    fun _ => ⟨fun hf' => (not_cached_emptied hf').elim,
    fun hg => (hregistered hg).elim, fun hf' => (not_cached_emptied hf').elim⟩,
    fun hlt => ?_, fun hq hlt => ?_⟩
  · obtain ⟨p, hp, -⟩ := hs.housed.held.first
    rw [hpages]
    exact CodePages.held_reset c.region (Nat.zero_lt_of_lt (Array.getElem?_eq_some_iff.mp hp).1)
  · rw [← pagesOf_eq hf', hpages] at hne
    exact absurd rfl hne
  · refine (hs.issued hlt).congr (fun hf' hg => ?_) fun {g r} hr => ⟨r.target, hr⟩
    obtain ⟨f, hf, rfl⟩ := emptied_back hf'
    exact ⟨f, hf, hg⟩
  · exact (hs.wired hq hlt).congr rfl (CodePages.alike_reset _) (fun hg => (hregistered hg).elim)
      (fun hg => (hregistered hg).elim) (fun hf' => (not_cached_emptied hf').elim)
      (fun hg => (hregistered hg).elim) fun hg => (hregistered hg).elim

/-- After a flush nothing is cached. -/
theorem flush_ensures (hs : Sound p q c) :
    Ensures Harmless flush c fun _ c' => Sound p q c' ∧ c'.backend = c.backend ∧
    ∀ id, c'.cached? id = none := by
  unfold flush
  refine .get ?_
  have hl : ∀ id ∈ c.toList.map (·.id), ∃ f, c.fragment? id = some f ∧
      (f.cached = true ∨ f.state = .invalidated) := by
    intro id hid
    obtain ⟨f, hf, rfl⟩ := List.mem_map.mp hid
    obtain ⟨hf, hcached⟩ := List.mem_filter.mp hf
    exact ⟨f, hs.trees.fragment?_of_mem hf, .inl hcached⟩
  refine .bind (invalidateRoots_ensures hs hl) fun gone c₁ ⟨hs₁, hbackend, hback, hroots⟩ => ?_
  have hnone : ∀ id, c₁.cached? id = none := by
    intro id
    refine Option.eq_none_iff_forall_ne_some.mpr fun f hf => ?_
    obtain ⟨r, hr, hkind, -⟩ := hs₁.trees.root hf
    obtain ⟨r₀, hr₀, -⟩ := hback _ r hr
    refine hroots f.root (List.mem_map.mpr ⟨r₀, mem_toList hr₀, ?_⟩) r hr hkind
    exact hs.trees.numbered (fragment?_of_cached hr₀)
  exact .modify_bind (.pure ⟨hs₁.emptied hnone, hbackend, cached?_emptied c₁⟩)

end LoopTracer.FragmentCache
