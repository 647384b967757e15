import Mathlib.Data.List.Count
import Mathlib.Data.List.Nodup
import Mathlib.Tactic.Common
import Weft.Proofs.Symbol.Names

/-!
# Declarations laid over each other

What a namespace declares, path by path, and what becomes of it when the declarations of others are laid over it one after
the other. Two declarations of one path clash unless both are namespaces; the first one stays, and hides what the second one
has below it.
-/

namespace Weft

/-- What is declared under a path. -/
inductive Declaration where
  | space
  | leaf (sym : Sym)

/-- What a symbol is declared as. -/
def Sym.declaration : Sym → Declaration
  | .space _ => .space
  | sym => .leaf sym

/-- The qualified name of a path of any names. -/
def pathName (path : List String) : String := path.foldl qualified ""

/-- What is declared under each path. -/
abbrev Declarations := List String → Option Declaration

namespace Declarations

/-- The declarations below a path. -/
def under (A : Declarations) (outer : List String) : Declarations := fun path => A (outer ++ path)

/-- Nothing but the namespace itself. -/
def bare : Declarations := fun path => if path = [] then some .space else none

/-- Lay further declarations over those of a namespace: what is free is taken from them, namespaces of one name are laid over
each other, and anything else stays. -/
def overlay : Declarations → Declarations → Declarations
  | A, _, [] => A []
  | A, B, name :: rest =>
    match A [name] with
    | none => B (name :: rest)
    | some (.leaf _) => A (name :: rest)
    | some .space => overlay (A.under [name]) (B.under [name]) rest

/-- A path has two declarations that are not both namespaces. -/
def Clash (A B : Declarations) (path : List String) : Prop :=
  ∃ a b, A path = some a ∧ B path = some b ∧ ¬(a = .space ∧ b = .space)

/-- No path has two declarations unless both are namespaces. -/
def Compatible (A B : Declarations) : Prop := ∀ path, ¬A.Clash B path

/-- Only namespaces have declarations below them. -/
structure Nested (A : Declarations) : Prop where
  root : A [] = some .space
  below : ∀ path rest {d}, rest ≠ [] → A (path ++ rest) = some d → A path = some .space

/-- The names are those of the paths that clash, each of them once. -/
def Reports (outer : List String) (A B : Declarations) (names : List String) : Prop :=
  ∃ paths : List (List String), paths.Nodup ∧ (∀ p, p ∈ paths ↔ A.Clash B p) ∧
    names = paths.map fun p => pathName (outer ++ p)

/-- The path begins with one of the names. -/
def Within (names : String → Prop) (path : List String) : Prop := ∃ x t, path = x :: t ∧ names x

/-- Below a path the further declarations that begin with some names have been laid over those that were there, and the names
of the paths that clash have been reported; everything else is as it was. -/
structure Laid (outer : List String) (names : String → Prop) (B F F' : Declarations) (reported : List String) : Prop where
  outside : ∀ path, (∀ x t, names x → path ≠ outer ++ x :: t) → F' path = F path
  inside : ∀ x t, names x → F' (outer ++ x :: t) = (F.under outer).overlay B (x :: t)
  reports : ∃ paths : List (List String), paths.Nodup ∧ (∀ p, p ∈ paths ↔ (F.under outer).Clash B p ∧ Within names p) ∧
    reported = paths.map fun p => pathName (outer ++ p)

/-- Each list of names is what clashes when the next declarations are laid over all those before. -/
def Reported : Declarations → List Declarations → List (List String) → Prop
  | _, [], found => found = []
  | A, B :: more, found =>
    ∃ names rest, found = names :: rest ∧ A.Reports [] B names ∧ (A.overlay B).Reported more rest

variable {A B C : Declarations} {Bs : List Declarations} {path rest : List String} {name : String} {d : Declaration}
  {found : List (List String)}

theorem Clash.symm (h : A.Clash B path) : B.Clash A path := by
  obtain ⟨a, b, ha, hb, hab⟩ := h
  exact ⟨b, a, hb, ha, fun h => hab h.symm⟩

theorem Compatible.symm (h : A.Compatible B) : B.Compatible A := fun path hc => h path hc.symm

theorem nested_bare : bare.Nested where
  root := rfl
  below path rest d hne h := by
    rw [bare, if_neg (by simp [hne])] at h
    cases h

theorem compatible_bare (hB : B.Nested) : bare.Compatible B := by
  rintro path ⟨a, b, ha, hb, hab⟩
  unfold bare at ha
  split at ha
  · next h =>
    subst h
    rw [hB.root] at hb
    exact hab ⟨(Option.some.inj ha).symm, (Option.some.inj hb).symm⟩
  · cases ha

namespace Nested

/-- Nothing is declared below a name that is free. -/
theorem eq_none (hA : A.Nested) (h : A [name] = none) : A (name :: rest) = none := by
  by_contra hne
  obtain ⟨d, hd⟩ := Option.ne_none_iff_exists'.mp hne
  cases rest with
  | nil => exact hne h
  | cons y t =>
    have := hA.below [name] (y :: t) (by simp) hd
    rw [h] at this
    cases this

/-- Nothing is declared below a declaration other than a namespace. -/
theorem eq_none_of_leaf (hA : A.Nested) {sym : Sym} (h : A path = some (.leaf sym)) (rest : List String) (hne : rest ≠ []) :
    A (path ++ rest) = none := by
  by_contra hsome
  obtain ⟨d, hd⟩ := Option.ne_none_iff_exists'.mp hsome
  rw [hA.below _ _ hne hd] at h
  cases h

theorem under (hA : A.Nested) (h : A [name] = some .space) : (A.under [name]).Nested where
  root := h
  below path rest _ hne hd := hA.below (name :: path) rest hne hd

end Nested

/-! ## Two namespaces -/

/-- A name stays as it is if nothing is declared below it and it is not free, or nothing at all. -/
theorem overlay_stays (hA : A.Nested) (hB : ∀ y t, B (name :: y :: t) = none) (h : A [name] ≠ none ∨ B [name] = none) :
    A.overlay B (name :: rest) = A (name :: rest) := by
  induction rest generalizing A B name with
  | nil =>
    rw [overlay]
    split
    · next hs => rw [hs, h.resolve_left fun h => h hs]
    · rfl
    · rfl
  | cons y t ih =>
    rw [overlay]
    split
    · next hs => rw [hB, hA.eq_none hs]
    · rfl
    · next hs => exact ih (hA.under hs) (fun y' t' => hB y (y' :: t')) (.inr (hB y []))

theorem overlay_free (h : A [name] = none) : A.overlay B (name :: rest) = B (name :: rest) := by
  rw [overlay, h]

theorem overlay_space (h : A [name] = some .space) :
    A.overlay B (name :: rest) = (A.under [name]).overlay (B.under [name]) rest := by
  rw [overlay, h]

theorem overlay_congr {A' B' : Declarations} (hA : ∀ t, A (name :: t) = A' (name :: t))
    (hB : ∀ t, B (name :: t) = B' (name :: t)) : A.overlay B (name :: rest) = A'.overlay B' (name :: rest) := by
  have hAu : A.under [name] = A'.under [name] := funext hA
  have hBu : B.under [name] = B'.under [name] := funext hB
  rw [overlay, overlay, hA [], hA rest, hB rest, hAu, hBu]

theorem bare_overlay (hB : B [] = some .space) : bare.overlay B = B := by
  funext path
  cases path with
  | nil => exact hB.symm
  | cons name rest => rfl

/-- What a path has in the end it had before, or nothing was there and it is from the further declarations. -/
theorem overlay_cases (hA : A.Nested) (B : Declarations) (path : List String) :
    A.overlay B path = A path ∨ (A path = none ∧ A.overlay B path = B path) := by
  induction path generalizing A B with
  | nil => exact .inl rfl
  | cons name rest ih =>
    rw [overlay]
    split
    · next h => exact .inr ⟨hA.eq_none h, rfl⟩
    · exact .inl rfl
    · next h => exact ih (hA.under h) _

/-- Further declarations are taken where the path to them leads through namespaces or names that are free. -/
theorem overlay_open (hA : A.Nested) (hopen : ∀ q r sym, q ++ r = path → r ≠ [] → A q ≠ some (.leaf sym)) :
    A.overlay B path = (A path).or (B path) := by
  induction path generalizing A B with
  | nil => rw [overlay, hA.root, Option.some_or]
  | cons name rest ih =>
    rw [overlay]
    split
    · next h => rw [hA.eq_none h, Option.none_or]
    · next sym h =>
      have hrest : rest = [] := by
        by_contra hne
        exact hopen [name] rest sym rfl hne h
      rw [hrest, h, Option.some_or]
    · next h => exact ih (hA.under h) fun q r sym hqr => hopen (name :: q) r sym (by rw [← hqr]; rfl)

/-- Without clashes the declarations of both are there in the end. -/
theorem overlay_compatible (hA : A.Nested) (hB : B.Nested) (h : A.Compatible B) :
    A.overlay B path = (A path).or (B path) := by
  cases hb : B path with
  | none =>
    rw [Option.or_none]
    rcases overlay_cases hA B path with h | ⟨ha, h⟩
    · exact h
    · rw [h, ha, hb]
  | some b =>
    rw [← hb]
    refine overlay_open hA fun q r sym hqr hne hq => h q ⟨_, _, hq, hB.below q r hne (hqr ▸ hb), ?_⟩
    rintro ⟨h, -⟩
    cases h

private theorem below_overlay (hA : A.Nested)
    (hB : ∀ path rest {d}, rest ≠ [] → B (path ++ rest) = some d → B path = some .space) (hne : rest ≠ [])
    (h : A.overlay B (path ++ rest) = some d) : A.overlay B path = some .space := by
  induction path generalizing A B with
  | nil => exact hA.root
  | cons name path ih =>
    rw [List.cons_append, overlay] at h
    rw [overlay]
    split at h
    · exact hB (name :: path) rest hne h
    · next sym hs =>
      have hnone := hA.eq_none_of_leaf hs (path ++ rest) (by simp [hne])
      rw [List.singleton_append, h] at hnone
      cases hnone
    · next hs => exact ih (hA.under hs) (fun path rest _ hne hd => hB (name :: path) rest hne hd) h

theorem Nested.overlay (hA : A.Nested) (hB : B.Nested) : (A.overlay B).Nested where
  root := hA.root
  below _ _ _ hne h := below_overlay hA hB.below hne h

/-! ## One name after the other -/

section Names

variable {outer : List String} {names names' : String → Prop} {F F' F'' : Declarations} {reported reported' : List String}

theorem Laid.unchanged (hstay : ∀ x t, names x → (F.under outer).overlay B (x :: t) = F.under outer (x :: t))
    (hclash : ∀ x t, names x → ¬(F.under outer).Clash B (x :: t)) : Laid outer names B F F [] where
  outside _ _ := rfl
  inside x t hx := (hstay x t hx).symm
  reports := by
    refine ⟨[], List.nodup_nil, fun p => ⟨fun h => absurd h List.not_mem_nil, ?_⟩, rfl⟩
    rintro ⟨hc, x, t, rfl, hx⟩
    exact absurd hc (hclash x t hx)

theorem Laid.trans (h : Laid outer names B F F' reported) (h' : Laid outer names' B F' F'' reported')
    (hne : ∀ x, names x → ¬names' x) :
    Laid outer (fun x => names x ∨ names' x) B F F'' (reported ++ reported') := by
  have hkeep : ∀ x t, names' x → F'.under outer (x :: t) = F.under outer (x :: t) := by
    refine fun x t hx => h.outside _ fun y u hy he => ?_
    obtain ⟨rfl, -⟩ := List.cons.inj (List.append_cancel_left he)
    exact hne x hy hx
  have hclash : ∀ x t, names' x → ((F'.under outer).Clash B (x :: t) ↔ (F.under outer).Clash B (x :: t)) := fun x t hx => by
    rw [Clash, Clash, hkeep x t hx]
  constructor
  · intro path hpath
    rw [h'.outside path fun x t hx => hpath x t (.inr hx), h.outside path fun x t hx => hpath x t (.inl hx)]
  · rintro x t (hx | hx)
    · rw [h'.outside, h.inside x t hx]
      intro y u hy he
      obtain ⟨rfl, -⟩ := List.cons.inj (List.append_cancel_left he)
      exact hne x hx hy
    · rw [h'.inside x t hx]
      exact overlay_congr (fun t => hkeep x t hx) fun _ => rfl
  · obtain ⟨paths, hnodup, hmem, rfl⟩ := h.reports
    obtain ⟨paths', hnodup', hmem', rfl⟩ := h'.reports
    refine ⟨paths ++ paths', ?_, fun p => ?_, List.map_append.symm⟩
    · refine List.nodup_append'.mpr ⟨hnodup, hnodup', fun p hp hp' => ?_⟩
      obtain ⟨-, x, t, rfl, hx⟩ := (hmem p).mp hp
      obtain ⟨-, y, u, he, hy⟩ := (hmem' _).mp hp'
      obtain ⟨rfl, -⟩ := List.cons.inj he
      exact hne x hx hy
    · rw [List.mem_append, hmem, hmem']
      constructor
      · rintro (⟨hc, x, t, rfl, hx⟩ | ⟨hc, x, t, rfl, hx⟩)
        · exact ⟨hc, x, t, rfl, .inl hx⟩
        · exact ⟨(hclash x t hx).mp hc, x, t, rfl, .inr hx⟩
      · rintro ⟨hc, x, t, rfl, hx | hx⟩
        · exact .inl ⟨hc, x, t, rfl, hx⟩
        · exact .inr ⟨(hclash x t hx).mpr hc, x, t, rfl, hx⟩

/-- Names that nothing further is declared under may be counted in. -/
theorem Laid.whole (h : Laid outer names B F F' reported) (hF : (F.under outer).Nested)
    (hB : ∀ x t, ¬names x → B (x :: t) = none) : Laid outer (fun _ => True) B F F' reported where
  outside path hpath := h.outside path fun x t _ => hpath x t trivial
  inside x t _ := by
    by_cases hx : names x
    · exact h.inside x t hx
    · rw [overlay_stays hF (fun y t => hB x _ hx) (.inr (hB x _ hx))]
      refine h.outside _ fun y u hy he => ?_
      obtain ⟨rfl, -⟩ := List.cons.inj (List.append_cancel_left he)
      exact hx hy
  reports := by
    obtain ⟨paths, hnodup, hmem, rfl⟩ := h.reports
    refine ⟨paths, hnodup, fun p => (hmem p).trans ?_, rfl⟩
    constructor
    · rintro ⟨hc, x, t, rfl, -⟩
      exact ⟨hc, x, t, rfl, trivial⟩
    · rintro ⟨hc, x, t, rfl, -⟩
      refine ⟨hc, x, t, rfl, ?_⟩
      by_contra hx
      obtain ⟨a, b, -, hb, -⟩ := hc
      rw [hB x t hx] at hb
      cases hb

/-- What is laid over a nested namespace is laid over the outer one under its name. -/
theorem Laid.outward (h : Laid (outer ++ [name]) (fun _ => True) (B.under [name]) F F' reported)
    (hs : F (outer ++ [name]) = some .space) (hB : B [name] = some .space) :
    Laid outer (· = name) B F F' reported where
  outside path hpath := h.outside path fun x t _ => by simpa using hpath name (x :: t) rfl
  inside x t hx := by
    subst hx
    rw [overlay_space (A := F.under outer) hs]
    cases t with
    | nil => exact h.outside _ fun y u _ => by simp
    | cons y u =>
      have hat : (F.under outer).under [x] = F.under (outer ++ [x]) := funext fun p => by simp [under]
      rw [hat, ← h.inside y u trivial]
      simp
  reports := by
    obtain ⟨paths, hnodup, hmem, rfl⟩ := h.reports
    have hclash : ∀ p, (F.under (outer ++ [name])).Clash (B.under [name]) p ↔ (F.under outer).Clash B (name :: p) := by
      intro p
      simp [Clash, under, under]
    refine ⟨paths.map (name :: ·), hnodup.map fun _ _ h => (List.cons.inj h).2, fun p => ?_, by simp⟩
    rw [List.mem_map]
    constructor
    · rintro ⟨q, hq, rfl⟩
      exact ⟨(hclash q).mp ((hmem q).mp hq).1, name, q, rfl, rfl⟩
    · rintro ⟨hc, x, t, rfl, rfl⟩
      refine ⟨t, (hmem t).mpr ⟨(hclash t).mpr hc, ?_⟩, rfl⟩
      cases t with
      | nil =>
        obtain ⟨a, b, ha, hb, hab⟩ := hc
        simp_all [under]
      | cons y u => exact ⟨y, u, rfl, trivial⟩

/-- A name that was free is a namespace now, and what is laid over it has one there. -/
theorem Laid.opened {F₁ : Declarations} (h : Laid outer (· = name) B F₁ F' reported) (hF : (F.under outer).Nested)
    (hB : B.Nested) (hfree : F (outer ++ [name]) = none) (hspace : B [name] = some .space)
    (hF₁ : ∀ path, F₁ path = if path = outer ++ [name] then some .space else F path) :
    Laid outer (· = name) B F F' reported := by
  have hnone : ∀ t, F.under outer (name :: t) = none := fun t => hF.eq_none hfree
  have hbare : (F₁.under outer).under [name] = bare := by
    funext t
    have := hnone t
    by_cases ht : t = []
    · simp [under, hF₁, bare, ht]
    · simpa [under, hF₁, bare, ht] using this
  have hname : F₁.under outer [name] = some .space := by rw [under, hF₁, if_pos rfl]
  constructor
  · intro path hpath
    rw [h.outside path hpath, hF₁, if_neg (hpath name [] rfl)]
  · rintro x t rfl
    rw [h.inside x t rfl, overlay_space hname, hbare, bare_overlay hspace, overlay_free hfree]
    rfl
  · obtain ⟨paths, hnodup, hmem, rfl⟩ := h.reports
    refine ⟨paths, hnodup, fun p => (hmem p).trans ⟨?_, ?_⟩, rfl⟩
    · rintro ⟨hc, x, t, rfl, rfl⟩
      refine absurd ?_ (compatible_bare (hB.under hspace) t)
      rw [← hbare]
      exact hc
    · rintro ⟨⟨a, b, ha, -, -⟩, x, t, rfl, rfl⟩
      rw [hnone t] at ha
      cases ha

/-- A name that was free is taken as it is in the further declarations. -/
theorem Laid.taken {sym : Sym} (hF : (F.under outer).Nested) (hB : B.Nested) (hfree : F (outer ++ [name]) = none)
    (hleaf : B [name] = some (.leaf sym))
    (hF' : ∀ path, F' path = if path = outer ++ [name] then some (.leaf sym) else F path) :
    Laid outer (· = name) B F F' [] := by
  have hnone : ∀ t, F (outer ++ name :: t) = none := fun t => hF.eq_none hfree
  constructor
  · intro path hpath
    rw [hF', if_neg (hpath name [] rfl)]
  · rintro x t rfl
    rw [overlay_free hfree, hF', hnone]
    cases t with
    | nil => rw [if_pos rfl, hleaf]
    | cons y u => rw [if_neg (by simp), ← List.singleton_append, hB.eq_none_of_leaf hleaf _ (by simp)]
  · refine ⟨[], List.nodup_nil, fun p => ⟨fun h => absurd h List.not_mem_nil, ?_⟩, rfl⟩
    rintro ⟨⟨a, b, ha, -, -⟩, x, t, rfl, rfl⟩
    rw [under, hnone t] at ha
    cases ha

/-- A name that clashes stays what it is. -/
theorem Laid.refused (hF : (F.under outer).Nested) (hB : B.Nested) (hclash : (F.under outer).Clash B [name]) :
    Laid outer (· = name) B F F [pathName (outer ++ [name])] := by
  obtain ⟨a, b, ha, hb, hab⟩ := hclash
  constructor
  · exact fun _ _ => rfl
  · rintro x t rfl
    cases b with
    | leaf sym =>
      have hbelow : ∀ y u, B (x :: y :: u) = none := fun y u => hB.eq_none_of_leaf hb (y :: u) (by simp)
      exact (overlay_stays hF hbelow (.inl (by rw [ha]; exact Option.some_ne_none a))).symm
    | space =>
      cases a with
      | space => exact absurd ⟨rfl, rfl⟩ hab
      | leaf sym => rw [overlay, ha]; rfl
  · refine ⟨[[name]], List.nodup_singleton _, fun p => ?_, rfl⟩
    rw [List.mem_singleton]
    constructor
    · rintro rfl
      exact ⟨⟨a, b, ha, hb, hab⟩, name, [], rfl, rfl⟩
    · rintro ⟨⟨a', b', ha', hb', -⟩, x, t, rfl, rfl⟩
      by_contra hne
      have ht : t ≠ [] := fun h => hne (by rw [h])
      -- both have something below the name, so both have a namespace there
      have hsa := hF.below [x] t ht ha'
      have hsb := hB.below [x] t ht hb'
      rw [ha] at hsa
      rw [hb] at hsb
      exact hab ⟨Option.some.inj hsa, Option.some.inj hsb⟩

end Names

/-! ## One namespace after the other -/

/-- With what was laid over a namespace something is compatible that is compatible with both. -/
theorem Compatible.overlay_iff (h : A.Compatible B) (hA : A.Nested) (hB : B.Nested) :
    (A.overlay B).Compatible C ↔ A.Compatible C ∧ B.Compatible C := by
  have hor : ∀ path, A.overlay B path = (A path).or (B path) := fun path => overlay_compatible hA hB h
  constructor
  · refine fun hc => ⟨?_, ?_⟩
    · rintro path ⟨a, c, ha, hcp, hac⟩
      exact hc path ⟨a, c, by rw [hor, ha, Option.some_or], hcp, hac⟩
    · rintro path ⟨b, c, hb, hcp, hbc⟩
      cases ha : A path with
      | none => exact hc path ⟨b, c, by rw [hor, ha, Option.none_or, hb], hcp, hbc⟩
      | some a =>
        -- both have the path, so both have a namespace there
        obtain ⟨rfl, rfl⟩ : a = .space ∧ b = .space := by
          by_contra hab
          exact h path ⟨a, b, ha, hb, hab⟩
        exact hc path ⟨_, c, by rw [hor, ha, Option.some_or], hcp, hbc⟩
  · rintro ⟨hac, hbc⟩ path ⟨d, c, hd, hcp, hdc⟩
    rw [hor, Option.or_eq_some_iff] at hd
    rcases hd with hd | ⟨-, hd⟩
    · exact hac path ⟨d, c, hd, hcp, hdc⟩
    · exact hbc path ⟨d, c, hd, hcp, hdc⟩

theorem Reports.nil_iff {outer names : List String} (h : A.Reports outer B names) : names = [] ↔ A.Compatible B := by
  obtain ⟨paths, -, hmem, rfl⟩ := h
  rw [List.map_eq_nil_iff, List.eq_nil_iff_forall_not_mem]
  exact forall_congr' fun p => not_congr (hmem p)

/-- Nothing is reported exactly if no two of all are in each other's way. -/
theorem Reported.empty_iff (h : A.Reported Bs found) (hA : A.Nested) (hBs : ∀ B ∈ Bs, B.Nested) :
    found.flatten = [] ↔ (A :: Bs).Pairwise Compatible := by
  induction Bs generalizing A found with
  | nil =>
    obtain rfl : found = [] := h
    simp
  | cons B Bs ih =>
    obtain ⟨names, rest, rfl, hnames, hrest⟩ := h
    have hB := hBs B List.mem_cons_self
    rw [List.flatten_cons, List.append_eq_nil_iff, hnames.nil_iff,
      ih hrest (hA.overlay hB) fun B' hB' => hBs B' (List.mem_cons_of_mem _ hB')]
    simp only [List.pairwise_cons, List.mem_cons, forall_eq_or_imp]
    constructor
    · rintro ⟨hAB, hover, hpair⟩
      have hboth := fun C hC => (hAB.overlay_iff hA hB).mp (hover C hC)
      exact ⟨⟨hAB, fun C hC => (hboth C hC).1⟩, fun C hC => (hboth C hC).2, hpair⟩
    · rintro ⟨⟨hAB, hAC⟩, hBC, hpair⟩
      exact ⟨hAB, fun C hC => (hAB.overlay_iff hA hB).mpr ⟨hAC C hC, hBC C hC⟩, hpair⟩

/-- Without reports the declarations of all are there in the end. -/
theorem Reported.union (h : A.Reported Bs found) (hA : A.Nested) (hBs : ∀ B ∈ Bs, B.Nested)
    (hnone : found.flatten = []) :
    Bs.foldl overlay A path = some d ↔ A path = some d ∨ ∃ B ∈ Bs, B path = some d := by
  induction Bs generalizing A found with
  | nil => simp
  | cons B Bs ih =>
    obtain ⟨names, rest, rfl, hnames, hrest⟩ := h
    have hB := hBs B List.mem_cons_self
    obtain ⟨hnil, hflat⟩ := List.append_eq_nil_iff.mp (List.flatten_cons ▸ hnone)
    have hAB := hnames.nil_iff.mp hnil
    rw [List.foldl_cons, ih hrest (hA.overlay hB) (fun B' hB' => hBs B' (List.mem_cons_of_mem _ hB')) hflat,
      overlay_compatible hA hB hAB, List.exists_mem_cons_iff, ← or_assoc]
    refine or_congr_left ?_
    rw [Option.or_eq_some_iff]
    constructor
    · rintro (h | ⟨-, h⟩)
      · exact .inl h
      · exact .inr h
    · rintro (ha | hb)
      · exact .inl ha
      · cases ha : A path with
        | none => exact .inr ⟨rfl, hb⟩
        | some a =>
          obtain ⟨rfl, rfl⟩ : a = .space ∧ d = .space := by
            by_contra hab
            exact hAB path ⟨a, d, ha, hb, hab⟩
          exact .inl rfl

/-- The name of a path is that of no other path that is declared. -/
def NamesOnly (path : List String) (B : Declarations) : Prop :=
  ∀ other, B other ≠ none → pathName other = pathName path → other = path

/-- A path that is no namespace is reported once if both have it. -/
theorem Reports.count {names : List String} (h : A.Reports [] B names) (hA : A path ≠ some .space)
    (honly : NamesOnly path B) :
    names.count (pathName path) = if (A path).isSome && (B path).isSome then 1 else 0 := by
  obtain ⟨paths, hnodup, hmem, rfl⟩ := h
  have hname : ∀ p ∈ paths, (pathName ([] ++ p) == pathName path) = true ↔ (p == path) = true := by
    intro p hp
    rw [beq_iff_eq, beq_iff_eq]
    refine ⟨fun hn => honly p ?_ hn, fun he => by rw [he]; rfl⟩
    obtain ⟨a, b, -, hb, -⟩ := (hmem p).mp hp
    rw [hb]
    exact Option.some_ne_none b
  have hclash : A.Clash B path ↔ ((A path).isSome && (B path).isSome) = true := by
    rw [Bool.and_eq_true, Option.isSome_iff_exists, Option.isSome_iff_exists]
    constructor
    · rintro ⟨a, b, ha, hb, -⟩
      exact ⟨⟨a, ha⟩, b, hb⟩
    · rintro ⟨⟨a, ha⟩, b, hb⟩
      exact ⟨a, b, ha, hb, fun hab => hA (by rw [ha, hab.1])⟩
  rw [List.count, List.countP_map]
  calc List.countP _ paths = paths.count path := List.countP_congr hname
    _ = if path ∈ paths then 1 else 0 := hnodup.count
    _ = _ := if_congr ((hmem path).trans hclash) rfl rfl

/-- Where the path of a declaration leads through namespaces only, and it is none itself, its name is reported once for each
declaration of the path but the first. -/
theorem Reported.count (h : A.Reported Bs found) (hA : A.Nested) (hBs : ∀ B ∈ Bs, B.Nested)
    (hspaces : ∀ B ∈ A :: Bs, ∀ q r d, q ++ r = path → r ≠ [] → B q = some d → d = .space)
    (hleaf : ∀ B ∈ A :: Bs, B path ≠ some .space) (honly : ∀ B ∈ Bs, NamesOnly path B) :
    found.flatten.count (pathName path) =
      if (A path).isSome then Bs.countP fun B => (B path).isSome else (Bs.countP fun B => (B path).isSome) - 1 := by
  induction Bs generalizing A found with
  | nil =>
    obtain rfl : found = [] := h
    simp
  | cons B Bs ih =>
    obtain ⟨names, rest, rfl, hnames, hrest⟩ := h
    simp only [List.mem_cons, forall_eq_or_imp] at hspaces hleaf honly hBs
    obtain ⟨hAs, hBspaces, hmore⟩ := hspaces
    obtain ⟨hAl, hBl, hmorel⟩ := hleaf
    have hover : A.overlay B path = (A path).or (B path) :=
      overlay_open hA fun q r sym hqr hne hq => by cases hAs q r _ hqr hne hq
    have hlater := ih hrest (hA.overlay hBs.1) hBs.2
      (by
        rw [List.forall_mem_cons]
        refine ⟨fun q r d hqr hne hq => ?_, hmore⟩
        rcases overlay_cases hA B q with h | ⟨-, h⟩
        · exact hAs q r d hqr hne (h ▸ hq)
        · exact hBspaces q r d hqr hne (h ▸ hq))
      (by
        rw [List.forall_mem_cons]
        refine ⟨fun hd => ?_, hmorel⟩
        rw [hover, Option.or_eq_some_iff] at hd
        rcases hd with hd | ⟨-, hd⟩
        · exact hAl hd
        · exact hBl hd)
      honly.2
    rw [List.flatten_cons, List.count_append, hnames.count hAl honly.1, hlater, hover, List.countP_cons]
    cases ha : (A path).isSome <;> cases hb : (B path).isSome <;> simp [ha, hb, Nat.add_comm]

end Declarations

end Weft
