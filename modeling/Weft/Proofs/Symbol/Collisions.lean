import Mathlib.Data.List.Infix
import Mathlib.Data.List.Perm.Subperm
import Weft.Build
import Weft.Proofs.Symbol.Merging

/-!
# Collisions between modules

The collisions between the namespaces of modules, and what the project namespace holds in the end, whatever the order in which
they are merged.
-/

namespace Weft

/-- What a lookup found, as a declaration. Namespaces of one name seen as one are a namespace. -/
def Found.declaration : Found → Declaration
  | .sym a => a.declaration
  | .view _ => .space

namespace Store

variable {s s' base : Store} {n m c dst project : NamespaceId} {name : String} {path : List String} {sym : Sym}

/-! ## Merging all -/

/-- The namespaces on a path are all different ones of the store. -/
theorem Nesting.chain_nodes (hs : s.Nesting) (hn : n.index < s.spaces.size) (h : s.Chain n path m) :
    ∃ nodes : List NamespaceId, nodes.length = path.length + 1 ∧ nodes.Nodup ∧
      ∀ k ∈ nodes, k.index < s.spaces.size ∧ ∃ way, s.Chain n way k := by
  induction path generalizing n with
  | nil =>
    refine ⟨[n], rfl, List.nodup_singleton n, fun k hk => ?_⟩
    obtain rfl := List.mem_singleton.mp hk
    exact ⟨hn, [], rfl⟩
  | cons x path ih =>
    obtain ⟨c, hget, h⟩ := h
    obtain ⟨nodes, hlen, hnodup, hnodes⟩ := ih (hs.made hget) h
    refine ⟨n :: nodes, by rw [List.length_cons, hlen, List.length_cons], List.nodup_cons.mpr ⟨fun hmem => ?_, hnodup⟩, ?_⟩
    · obtain ⟨-, way, hway⟩ := hnodes n hmem
      have := hs.ends n (x :: way) ⟨c, hget, hway⟩
      cases this
    · rw [List.forall_mem_cons]
      refine ⟨⟨hn, [], rfl⟩, fun k hk => ?_⟩
      obtain ⟨hroom, way, hway⟩ := hnodes k hk
      exact ⟨hroom, x :: way, c, hget, hway⟩

/-- No path through namespaces is longer than there are namespaces. -/
theorem Nesting.length_lt (hs : s.Nesting) (hn : n.index < s.spaces.size) (h : s.Chain n path m) :
    path.length < s.spaces.size := by
  obtain ⟨nodes, hlen, hnodup, hnodes⟩ := hs.chain_nodes hn h
  have hindex : (nodes.map NamespaceId.index).Nodup := hnodup.map fun a b hab => by
    obtain ⟨a⟩ := a
    obtain ⟨b⟩ := b
    exact congrArg NamespaceId.mk hab
  have hsub : nodes.map NamespaceId.index ⊆ List.range s.spaces.size := by
    intro i hi
    obtain ⟨k, hk, rfl⟩ := List.mem_map.mp hi
    exact List.mem_range.mpr (hnodes k hk).1
  have hle := (List.subperm_of_subset hindex hsub).length_le
  rw [List.length_map, List.length_range, hlen] at hle
  omega

/-- Nesting ends where each namespace is made before those in it. -/
theorem Nesting.of_later (unique : ∀ n, ((s.space n).members.entries.map Prod.fst).Nodup)
    (later : ∀ {n name c}, (s.space n).members.get? name = some (.space c) → n.index < c.index ∧ c.index < s.spaces.size) :
    s.Nesting := by
  have hle : ∀ {path n m}, s.Chain n path m → n.index ≤ m.index ∧ (path ≠ [] → n.index < m.index) := by
    intro path
    induction path with
    | nil => exact fun h => ⟨by rw [show _ = _ from h], fun h => absurd rfl h⟩
    | cons x path ih =>
      rintro n m ⟨c, hget, h⟩
      have hlt := (later hget).1
      have := (ih h).1
      exact ⟨by omega, fun _ => by omega⟩
  refine ⟨unique, fun hget => (later hget).2, fun n path h => ?_⟩
  by_contra hne
  exact Nat.lt_irrefl _ ((hle h).2 hne)

theorem merges_merge {src : NamespaceId} (hbase : base.Nesting) (hsrc : src.index < base.spaces.size)
    (h : Merging base project s) :
    Merges base project [] (fun _ => True) (base.declared? src) s (merge project src s) := by
  have hroom := h.room
  have hfirst := h.first
  refine merges_mergeDepth hbase hsrc (fun path m hm => ?_) h rfl
  have := hbase.length_lt hsrc hm
  omega

theorem Merges.declared_eq {src : NamespaceId} {r : List Collision × Store}
    (h : Merges base project [] (fun _ => True) (base.declared? src) s r) :
    r.2.declared? project = (s.declared? project).overlay (base.declared? src) := by
  funext path
  cases path with
  | nil => rfl
  | cons x t => exact h.laid.inside x t trivial

theorem Merges.reports {src : NamespaceId} {r : List Collision × Store}
    (h : Merges base project [] (fun _ => True) (base.declared? src) s r) :
    (s.declared? project).Reports [] (base.declared? src) (r.1.map Collision.name) := by
  obtain ⟨paths, hnodup, hmem, hnames⟩ := h.laid.reports
  refine ⟨paths, hnodup, fun p => (hmem p).trans ⟨fun hc => hc.1, fun hc => ⟨hc, ?_⟩⟩, hnames⟩
  cases p with
  | nil =>
    obtain ⟨a, b, ha, hb, hab⟩ := hc
    cases ha
    cases hb
    exact absurd ⟨rfl, rfl⟩ hab
  | cons x t => exact ⟨x, t, rfl, trivial⟩

theorem merging_mapM {roots : List NamespaceId} (hbase : base.Nesting) (hroots : ∀ r ∈ roots, r.index < base.spaces.size)
    (h : Merging base project s) :
    Merging base project (roots.mapM (merge project) s).2 ∧
      (s.declared? project).Reported (roots.map base.declared?)
        ((roots.mapM (merge project) s).1.map fun cs => cs.map Collision.name) ∧
      (roots.mapM (merge project) s).2.declared? project =
        (roots.map base.declared?).foldl Declarations.overlay (s.declared? project) := by
  induction roots generalizing s with
  | nil => exact ⟨h, rfl, rfl⟩
  | cons root roots ih =>
    have hfirst := merges_merge hbase (hroots root List.mem_cons_self) h
    obtain ⟨hm, hreported, hdeclared⟩ := ih (fun r hr => hroots r (List.mem_cons_of_mem _ hr)) hfirst.merging
    have hrun : (root :: roots).mapM (merge project) s = ((merge project root s).1 ::
        (roots.mapM (merge project) (merge project root s).2).1, (roots.mapM (merge project) (merge project root s).2).2) := by
      rw [List.mapM_cons]
      rfl
    rw [hfirst.declared_eq] at hreported hdeclared
    rw [hrun]
    exact ⟨hm, ⟨_, _, rfl, hfirst.reports, hreported⟩, hdeclared⟩

theorem merging_new (s : Store) : Merging s ⟨s.spaces.size⟩ (newNamespace "" "" "" s).2 := by
  have hnone : ∀ {n name sym}, s.spaces.size ≤ n.index →
      ((newNamespace "" "" "" s).2.space n).members.get? name ≠ some sym := by
    intro n name sym hn hget
    have hdefault : s.space n = default := by simp [space, hn]
    rw [newNamespace, get?_added rfl, hdefault] at hget
    cases hget
  have hspace : ∀ n, (newNamespace "" "" "" s).2.space n = if n.index = s.spaces.size then
      { name := "", path := "", module := "", members := .empty, links := [] } else s.space n := fun n => space_addSpace
  constructor
  · intro n hn
    rw [hspace, if_neg (by omega)]
  · rfl
  · exact Nat.le_refl _
  · rw [newNamespace, size_added]; exact Nat.lt_succ_self _
  · rw [hspace, if_pos rfl]
  · intro n hn
    rw [hspace]
    split
    · rfl
    · simp [space, hn]; rfl
  · exact fun hn hget => absurd hget (hnone hn)
  · exact fun hn hget => absurd hget (hnone hn)
  · exact fun hn _ hget => absurd hget (hnone hn)

theorem declared?_new (s : Store) : (newNamespace "" "" "" s).2.declared? ⟨s.spaces.size⟩ = Declarations.bare := by
  funext path
  cases path with
  | nil => rfl
  | cons x t =>
    have hdefault : s.space ⟨s.spaces.size⟩ = default := by simp [space]
    rw [newNamespace, declared?_added rfl, declared?_none]
    · rfl
    · rw [exported?, hdefault]
      rfl

/-- What merging namespaces into a project namespace results in. -/
theorem merging_mergeAll {roots : List NamespaceId} (hs : s.Nesting) (hroots : ∀ r ∈ roots, r.index < s.spaces.size) :
    Merging s (mergeAll roots s).1.1 (mergeAll roots s).2 ∧
      Declarations.bare.Reported (roots.map s.declared?) ((mergeAll roots s).1.2.map fun cs => cs.map Collision.name) ∧
      (mergeAll roots s).2.declared? (mergeAll roots s).1.1 =
        (roots.map s.declared?).foldl Declarations.overlay Declarations.bare := by
  have h := merging_mapM hs hroots (merging_new s)
  rw [declared?_new] at h
  exact h

/-! ## Looking the project up -/

theorem resolveIn_unlinked {v : View} (hv : v.links = []) : s.resolveIn v name = (v.members.get? name).map .sym := by
  rw [resolveIn, hv]
  cases h : v.members.get? name with
  | none => rfl
  | some sym => cases sym <;> rfl

/-- What a path leads to in the project is what is declared under it. -/
theorem Merging.leads_iff (h : Merging base project s) (hn : base.spaces.size ≤ n.index) {f : Found}
    (hview : s.viewOf? f = some (s.space n).view) (hspace : f.declaration = .space) {d : Declaration} :
    (∃ g, s.Leads f path g ∧ g.declaration = d) ↔ s.declared? n path = some d := by
  induction path generalizing n f with
  | nil => simp [Leads, declared?, hspace]
  | cons x t ih =>
    have hfound : s.resolveIn (s.space n).view x = (s.exported? n x).map .sym := by
      rw [resolveIn_unlinked (h.unlinked n hn), h.exported?_new hn]
      rfl
    have hstep : (∃ g, s.Leads f (x :: t) g ∧ g.declaration = d) ↔
        ∃ a, s.exported? n x = some a ∧ ∃ g, s.Leads (.sym a) t g ∧ g.declaration = d := by
      constructor
      · rintro ⟨g, ⟨v, f', hv, hf', hg⟩, hd⟩
        obtain rfl := Option.some.inj (hview.symm.trans hv)
        rw [hfound, Option.map_eq_some_iff] at hf'
        obtain ⟨a, ha, rfl⟩ := hf'
        exact ⟨a, ha, g, hg, hd⟩
      · rintro ⟨a, ha, g, hg, hd⟩
        exact ⟨g, ⟨_, .sym a, hview, by rw [hfound, ha]; rfl, hg⟩, hd⟩
    rw [hstep]
    cases hx : s.exported? n x with
    | none => simp [declared?_none hx]
    | some a =>
      simp only [Option.some.injEq, exists_eq_left']
      by_cases ha : ∀ c, a ≠ .space c
      · rw [declared?_leaf hx ha]
        have hview : s.viewOf? (.sym a) = none := by
          cases a with
          | space c => exact absurd rfl (ha c)
          | _ => rfl
        cases t with
        | nil => simp [Leads, Found.declaration, declaration_leaf ha]
        | cons y u => simp [Leads, hview]
      · push Not at ha
        obtain ⟨c, rfl⟩ := ha
        have hc : (s.space n).members.get? x = some (.space c) := by rw [← h.exported?_new hn, hx]
        rw [ih (by have := (h.nested hn hc).1; omega) rfl rfl, ← declared?_under hx]
        rfl

theorem Merging.resolvePath_iff (h : Merging base project s) {d : Declaration} :
    (∃ f, s.resolvePath (s.resolve project) path = .ok f ∧ f.declaration = d) ↔
      path ≠ [] ∧ s.declared? project path = some d := by
  simp only [resolvePath_root_iff, and_assoc, exists_and_left]
  rw [h.leads_iff (f := .view (s.space project).view) h.first rfl rfl]

/-- Two of the namespaces declare a path, and not both as a namespace. -/
def Conflict (s : Store) (roots : List NamespaceId) : Prop :=
  ∃ (i j : Nat) (a b : NamespaceId) (path : List String), i ≠ j ∧ roots[i]? = some a ∧ roots[j]? = some b ∧ (s.declared? a).Clash (s.declared? b) path

theorem pairwise_compatible_iff {roots : List NamespaceId} :
    (roots.map s.declared?).Pairwise Declarations.Compatible ↔ ¬s.Conflict roots := by
  rw [List.pairwise_map, List.pairwise_iff_getElem]
  constructor
  · rintro h ⟨i, j, a, b, path, hij, ha, hb, hclash⟩
    obtain ⟨hi, rfl⟩ := List.getElem?_eq_some_iff.mp ha
    obtain ⟨hj, rfl⟩ := List.getElem?_eq_some_iff.mp hb
    rcases Nat.lt_or_gt_of_ne hij with hlt | hgt
    · exact h i j hi hj hlt path hclash
    · exact h j i hj hi hgt path hclash.symm
  · intro h i j hi hj hij path hclash
    exact h ⟨i, j, _, _, path, by omega, List.getElem?_eq_getElem hi, List.getElem?_eq_getElem hj, hclash⟩

theorem nested_roots {roots : List NamespaceId} : ∀ B ∈ roots.map s.declared?, B.Nested := by
  intro B hB
  obtain ⟨r, -, rfl⟩ := List.mem_map.mp hB
  exact nested_declared?

/-- Nothing is reported exactly if there is no conflict. -/
theorem mergeAll_empty_iff {roots : List NamespaceId} (hs : s.Nesting) (hroots : ∀ r ∈ roots, r.index < s.spaces.size) :
    (mergeAll roots s).1.2.flatten = [] ↔ ¬s.Conflict roots := by
  have hnames : (mergeAll roots s).1.2.flatten = [] ↔
      ((mergeAll roots s).1.2.map fun cs => cs.map Collision.name).flatten = [] := by
    rw [← List.map_flatten, List.map_eq_nil_iff]
  rw [hnames, (merging_mergeAll hs hroots).2.1.empty_iff Declarations.nested_bare nested_roots, List.pairwise_cons,
    pairwise_compatible_iff]
  exact and_iff_right fun B hB => Declarations.compatible_bare (nested_roots B hB)

theorem Conflict.perm {roots roots' : List NamespaceId} (h : roots.Perm roots') : s.Conflict roots ↔ s.Conflict roots' := by
  rw [← not_iff_not, ← pairwise_compatible_iff, ← pairwise_compatible_iff]
  exact (h.map _).pairwise_iff Declarations.Compatible.symm

/-! ## Names without points -/

theorem pathName_eq_dotted (h : ∀ x ∈ path, Dotless x) : pathName path = dotted path := by
  induction path using List.reverseRecOn with
  | nil => rfl
  | append_singleton path x ih =>
    have hpath : ∀ y ∈ path, Dotless y := fun y hy => h y (List.mem_append_left _ hy)
    rw [pathName, List.foldl_append, ← qualified_dotted hpath, ← ih hpath]
    rfl

theorem dotted_inj {path' : List String} (h : ∀ x ∈ path, Dotless x) (h' : ∀ x ∈ path', Dotless x)
    (he : dotted path = dotted path') : path = path' := by
  by_cases hp : path = []
  · by_contra hne
    subst hp
    exact dotted_ne_empty h' (Ne.symm hne) he.symm
  · by_cases hp' : path' = []
    · subst hp'
      exact absurd he (dotted_ne_empty h hp)
    · rw [← pieces_dotted h hp, he, pieces_dotted h' hp']

/-- With names that have no points in them, no two paths are written the same. -/
theorem namesOnly_of_dotless (hs : ∀ n, ∀ e ∈ (s.space n).members.entries, Dotless e.1) (hpath : ∀ x ∈ path, Dotless x) :
    (s.declared? n).NamesOnly path := by
  have hdeclared : ∀ other n, s.declared? n other ≠ none → ∀ x ∈ other, Dotless x := by
    intro other
    induction other with
    | nil => exact fun _ _ x hx => absurd hx List.not_mem_nil
    | cons y t ih =>
      intro n hne
      cases hy : s.exported? n y with
      | none => exact absurd (declared?_none hy) hne
      | some a =>
        refine List.forall_mem_cons.mpr ⟨hs n _ (exported?_mem hy), ?_⟩
        by_cases ha : ∀ c, a ≠ .space c
        · have ht : t = [] := by
            by_contra ht
            exact hne (by rw [declared?_leaf hy ha, if_neg ht])
          simp [ht]
        · push Not at ha
          obtain ⟨c, rfl⟩ := ha
          exact ih c (by rw [← declared?_under hy]; exact hne)
  intro other hother hname
  have hdots := hdeclared other n hother
  rw [pathName_eq_dotted hdots, pathName_eq_dotted hpath] at hname
  exact dotted_inj hdots hpath hname

/-! ## Exactness -/

/-- Collisions are found exactly where two namespaces declare a path and not both as a namespace, in whatever order the
namespaces are merged. A path that leads through namespaces only is reported once for each declaration but the first. Without
collisions the project namespace has what the namespaces declare, and the symbols they have stay as they are in any case. -/
theorem mergeAll_exact {s : Store} {roots : List NamespaceId} (hs : s.Nesting)
    (hroots : ∀ r ∈ roots, r.index < s.spaces.size) :
    ((mergeAll roots s).1.2.flatten = [] ↔ ¬s.Conflict roots) ∧
    (∀ roots', roots'.Perm roots → ((mergeAll roots' s).1.2.flatten = [] ↔ (mergeAll roots s).1.2.flatten = [])) ∧
    (∀ path, (∀ r ∈ roots, (s.declared? r).NamesOnly path) →
      (∀ r ∈ roots, ∀ before after d, before ++ after = path → after ≠ [] → s.declared? r before = some d → d = .space) →
      (∀ r ∈ roots, s.declared? r path ≠ some .space) →
      ((mergeAll roots s).1.2.flatten.map Collision.name).count (pathName path) =
        (roots.countP fun r => (s.declared? r path).isSome) - 1) ∧
    ((mergeAll roots s).1.2.flatten = [] → ∀ path d, path ≠ [] →
      ((∃ f, (mergeAll roots s).2.resolvePath ((mergeAll roots s).2.resolve (mergeAll roots s).1.1) path = .ok f ∧
        f.declaration = d) ↔ ∃ r ∈ roots, s.declared? r path = some d)) ∧
    (∀ n, n.index < s.spaces.size → (mergeAll roots s).2.space n = s.space n) ∧
    { (mergeAll roots s).2 with spaces := s.spaces } = s := by
  obtain ⟨hmerging, hreported, hdeclared⟩ := merging_mergeAll hs hroots
  have hempty := mergeAll_empty_iff hs hroots
  refine ⟨hempty, fun roots' hperm => ?_, fun path honly hspaces hleaf => ?_, fun hnone path d hpath => ?_, hmerging.old,
    hmerging.others⟩
  · rw [hempty, mergeAll_empty_iff hs fun r hr => hroots r (hperm.mem_iff.mp hr), Conflict.perm hperm]
  · by_cases hpath : path = []
    · -- the empty path is a namespace of every root
      cases roots with
      | nil => rfl
      | cons r roots => exact absurd (hpath ▸ rfl) (hleaf r List.mem_cons_self)
    · have hcount := hreported.count Declarations.nested_bare nested_roots
        (by
          rw [List.forall_mem_cons, List.forall_mem_map]
          refine ⟨fun q rest d _ _ hq => ?_, hspaces⟩
          unfold Declarations.bare at hq
          split at hq
          · exact (Option.some.inj hq).symm
          · cases hq)
        (by
          rw [List.forall_mem_cons, List.forall_mem_map]
          exact ⟨by simp [Declarations.bare, hpath], hleaf⟩)
        (List.forall_mem_map.mpr honly)
      rw [← List.map_flatten, List.countP_map] at hcount
      simpa [Declarations.bare, hpath, Function.comp_def] using hcount
  · rw [hmerging.resolvePath_iff, hdeclared, hreported.union Declarations.nested_bare nested_roots]
    · simp [Declarations.bare, hpath]
    · rw [← List.map_flatten, hnone]
      rfl

/-- Two files that each declare a function in a namespace of the same name. -/
def rivals : Store :=
  let outer (c : Nat) : Namespace :=
    { name := "", path := "", module := "", members := ⟨[("n", .space ⟨c⟩)]⟩, links := [] }
  let inner (f : Nat) : Namespace :=
    { name := "n", path := "n", module := "", members := ⟨[("f", .func ⟨f⟩)]⟩, links := [] }
  { empty with
    spaces := #[outer 1, inner 0, outer 3, inner 1]
    funcs := #[{ Func.bare "f" none [] with path := "n" }, { Func.bare "f" none [] with path := "n" }] }

theorem rivals_space (n : NamespaceId) : (n = ⟨0⟩ ∨ n = ⟨1⟩ ∨ n = ⟨2⟩ ∨ n = ⟨3⟩) ∨ rivals.space n = default := by
  match n with
  | ⟨0⟩ | ⟨1⟩ | ⟨2⟩ | ⟨3⟩ => simp
  | ⟨n + 4⟩ => exact .inr rfl

theorem rivals_nesting : rivals.Nesting := by
  refine .of_later (fun n => ?_) fun {n name c} hget => ?_
  · rcases rivals_space n with (rfl | rfl | rfl | rfl) | h
    · decide
    · decide
    · decide
    · decide
    · rw [h]; decide
  · have hmem := Table.get?_mem hget
    rcases rivals_space n with (rfl | rfl | rfl | rfl) | h
    · simp [rivals, space] at hmem ⊢
      simp [hmem]
    · simp [rivals, space] at hmem
    · simp [rivals, space] at hmem ⊢
      simp [hmem]
    · simp [rivals, space] at hmem
    · rw [h] at hget
      cases hget

theorem rivals_dotless (n : NamespaceId) : ∀ e ∈ (rivals.space n).members.entries, Dotless e.1 := by
  rcases rivals_space n with (rfl | rfl | rfl | rfl) | h
  · simp [rivals, space, Dotless]
  · simp [rivals, space, Dotless]
  · simp [rivals, space, Dotless]
  · simp [rivals, space, Dotless]
  · rw [h]
    exact fun e he => absurd he List.not_mem_nil

/-- The function that both files declare is reported once. -/
theorem mergeAll_rivals : rivals.Nesting ∧ (∀ r ∈ ([⟨0⟩, ⟨2⟩] : List NamespaceId), r.index < rivals.spaces.size) ∧
    ((mergeAll [⟨0⟩, ⟨2⟩] rivals).1.2.flatten.map Collision.name).count (pathName ["n", "f"]) = 1 := by
  have hroots : ∀ r ∈ ([⟨0⟩, ⟨2⟩] : List NamespaceId), r.index < rivals.spaces.size := by decide
  have hboth : ∀ r ∈ ([⟨0⟩, ⟨2⟩] : List NamespaceId), rivals.declared? r ["n"] = some .space ∧
      ∃ f, rivals.declared? r ["n", "f"] = some (.leaf (.func f)) := by
    simp only [List.forall_mem_cons, List.not_mem_nil, false_imp_iff, implies_true, and_true]
    exact ⟨⟨rfl, _, rfl⟩, rfl, _, rfl⟩
  refine ⟨rivals_nesting, hroots, ?_⟩
  rw [(mergeAll_exact rivals_nesting hroots).2.2.1 ["n", "f"]]
  · rfl
  · exact fun r _ => namesOnly_of_dotless rivals_dotless (by simp [Dotless])
  · intro r hr before after d happend hafter hd
    have hinits : before ∈ ["n", "f"].inits := (List.mem_inits _ _).mpr ⟨after, happend⟩
    simp only [List.inits, List.map_cons, List.map_nil, List.mem_cons, List.not_mem_nil, or_false] at hinits
    rcases hinits with rfl | rfl | rfl
    · exact (Option.some.inj hd).symm
    · exact Option.some.inj (hd.symm.trans (hboth r hr).1)
    · exact absurd (by simpa using happend) hafter
  · intro r hr hspace
    obtain ⟨f, hf⟩ := (hboth r hr).2
    rw [hf] at hspace
    cases hspace

end Store

end Weft
