import Mathlib.Data.List.Induction
import Weft.Proofs.Symbol.Changes
import Weft.Proofs.Symbol.Overlay
import Weft.Proofs.Symbol.Paths
import Weft.Symbol.Merge

/-!
# Merged namespaces

Merging namespaces into a project namespace lays what they declare for other files over each other, and reports what clashes.
The project namespace and those in it are new ones, so that none of the merged namespaces is written to.
-/

namespace Weft

namespace Store

/-- What a namespace declares for other files, path by path. -/
def declared? (s : Store) : NamespaceId → Declarations
  | _, [] => some .space
  | n, name :: rest =>
    match s.exported? n name with
    | none => none
    | some (.space c) => s.declared? c rest
    | some sym => if rest = [] then some (.leaf sym) else none

/-- Scopes have each name once, and nesting ends. -/
structure Nesting (s : Store) : Prop where
  unique : ∀ n, ((s.space n).members.entries.map Prod.fst).Nodup
  made : ∀ {n name c}, (s.space n).members.get? name = some (.space c) → c.index < s.spaces.size
  ends : ∀ n path, s.Chain n path n → path = []

/-- While namespaces of a store are merged, its own symbols stay as they were. The project namespace and those in it come
after them, hold what is visible from other files, and each of them has one place. -/
structure Merging (base : Store) (project : NamespaceId) (s : Store) : Prop where
  old : ∀ n, n.index < base.spaces.size → s.space n = base.space n
  others : { s with spaces := base.spaces } = base
  first : base.spaces.size ≤ project.index
  room : project.index < s.spaces.size
  top : (s.space project).path = ""
  unlinked : ∀ n, base.spaces.size ≤ n.index → (s.space n).links = []
  visible : ∀ {n name sym}, base.spaces.size ≤ n.index → (s.space n).members.get? name = some sym →
    s.isFileLocal sym = false
  nested : ∀ {n name c}, base.spaces.size ≤ n.index → (s.space n).members.get? name = some (.space c) →
    n.index < c.index ∧ c.index < s.spaces.size ∧ (s.space c).path = qualified (s.space n).path name
  placed : ∀ {n n' name name' c}, base.spaces.size ≤ n.index → base.spaces.size ≤ n'.index →
    (s.space n).members.get? name = some (.space c) → (s.space n').members.get? name' = some (.space c) →
    n = n' ∧ name = name'

/-- The members of each namespace are still there. -/
def Grows (s s' : Store) : Prop :=
  ∀ {n name sym}, (s.space n).members.get? name = some sym → (s'.space n).members.get? name = some sym

/-- A store with one more member in a namespace. -/
def pushed (s : Store) (n : NamespaceId) (name : String) (sym : Sym) : Store :=
  (updateSpace n (fun o => { o with members := o.members.push name sym }) s).2

variable {s s' base : Store} {n m c dst project : NamespaceId} {name : String} {path rest outer : List String} {sym : Sym}

/-! ## Paths through members -/

theorem chain_append : s.Chain n (path ++ rest) m ↔ ∃ k, s.Chain n path k ∧ s.Chain k rest m := by
  induction path generalizing n with
  | nil => simp [Chain]
  | cons x path ih => simp only [List.cons_append, Chain, ih]; grind

theorem chain_concat :
    s.Chain n (path ++ [name]) m ↔ ∃ k, s.Chain n path k ∧ (s.space k).members.get? name = some (.space m) := by
  simp [chain_append, Chain]

theorem Chain.mono (hg : Grows s s') (h : s.Chain n path m) : s'.Chain n path m := by
  induction path generalizing n with
  | nil => exact h
  | cons x path ih =>
    obtain ⟨c, hc, h⟩ := h
    exact ⟨c, hg hc, ih h⟩

theorem Chain.eq (h : s.Chain n path m) (h' : s.Chain n path c) : m = c := by
  induction path generalizing n with
  | nil => rw [show m = n from h, show c = n from h']
  | cons x path ih =>
    obtain ⟨k, hk, h⟩ := h
    obtain ⟨k', hk', h'⟩ := h'
    rw [hk] at hk'
    cases hk'
    exact ih h h'

theorem Grows.trans {s'' : Store} (h : Grows s s') (h' : Grows s' s'') : Grows s s'' := fun hg => h' (h hg)

/-! ## Declarations of a namespace -/

theorem exported?_space (h : (s.space n).members.get? name = some (.space c)) : s.exported? n name = some (.space c) := by
  simp [exported?, h, isFileLocal]

theorem declared?_under (h : s.exported? n name = some (.space c)) : (s.declared? n).under [name] = s.declared? c := by
  funext path
  simp [Declarations.under, declared?, h]

theorem declared?_none (h : s.exported? n name = none) : s.declared? n (name :: rest) = none := by
  simp [declared?, h]

theorem declared?_leaf (h : s.exported? n name = some sym) (hsym : ∀ c, sym ≠ .space c) :
    s.declared? n (name :: rest) = if rest = [] then some (.leaf sym) else none := by
  cases sym with
  | space c => exact absurd rfl (hsym c)
  | _ => simp [declared?, h]

theorem declared?_name : s.declared? n [name] = (s.exported? n name).map Sym.declaration := by
  cases h : s.exported? n name with
  | none => exact declared?_none h
  | some sym => cases sym <;> simp [declared?, h, Sym.declaration]

theorem nested_declared? : (s.declared? n).Nested where
  root := rfl
  below path rest d hne h := by
    induction path generalizing n with
    | nil => rfl
    | cons x path ih =>
      cases he : s.exported? n x with
      | none =>
        rw [List.cons_append, declared?_none he] at h
        cases h
      | some sym =>
        by_cases hsym : ∀ c, sym ≠ .space c
        · rw [List.cons_append, declared?_leaf he hsym, if_neg (by simp [hne])] at h
          cases h
        · push Not at hsym
          obtain ⟨c, rfl⟩ := hsym
          have hu := congrFun (declared?_under he)
          simp only [Declarations.under, List.singleton_append] at hu
          rw [List.cons_append, hu] at h
          rw [hu]
          exact ih h

theorem declared?_chain (h : s.Chain n path m) : s.declared? n (path ++ rest) = s.declared? m rest := by
  induction path generalizing n with
  | nil => rw [show m = n from h, List.nil_append]
  | cons x path ih =>
    obtain ⟨c, hc, h⟩ := h
    rw [← ih h, ← declared?_under (exported?_space hc)]
    rfl

theorem under_chain (h : s.Chain n path m) : (s.declared? n).under path = s.declared? m := funext fun _ => declared?_chain h

/-! ## The project namespace -/

namespace Merging

variable (h : Merging base project s)
include h

theorem exported?_new (hn : base.spaces.size ≤ n.index) : s.exported? n name = (s.space n).members.get? name := by
  unfold exported?
  split
  · next sym hget => rw [h.visible hn hget, hget]; rfl
  · next hget => exact hget.symm

theorem index_chain (hn : base.spaces.size ≤ n.index) (hc : s.Chain n path m) :
    n.index ≤ m.index ∧ (path ≠ [] → n.index < m.index) ∧ (n.index < s.spaces.size → m.index < s.spaces.size) := by
  induction path generalizing n with
  | nil =>
    obtain rfl : m = n := hc
    exact ⟨Nat.le_refl _, fun h => absurd rfl h, id⟩
  | cons x path ih =>
    obtain ⟨c, hget, hc⟩ := hc
    obtain ⟨hlt, hsize, -⟩ := h.nested hn hget
    obtain ⟨hle, -, hroom⟩ := ih (by omega) hc
    exact ⟨by omega, fun _ => by omega, fun _ => hroom hsize⟩

theorem inside (hc : s.Chain project path m) : base.spaces.size ≤ m.index ∧ m.index < s.spaces.size :=
  have hi := h.index_chain h.first hc
  ⟨by have := h.first; omega, hi.2.2 h.room⟩

/-- A namespace of the project has one path. -/
theorem chain_inj {path' : List String} (hc : s.Chain project path m) (hc' : s.Chain project path' m) : path = path' := by
  induction path using List.reverseRecOn generalizing path' m with
  | nil =>
    obtain rfl : m = project := hc
    by_contra hne
    have := (h.index_chain h.first hc').2.1 (Ne.symm hne)
    omega
  | append_singleton path x ih =>
    obtain ⟨k, hk, hget⟩ := chain_concat.mp hc
    cases path' using List.reverseRecOn with
    | nil =>
      obtain rfl : m = project := hc'
      have := (h.index_chain h.first hc).2.1 (by simp)
      omega
    | append_singleton path' x' =>
      obtain ⟨k', hk', hget'⟩ := chain_concat.mp hc'
      obtain ⟨rfl, rfl⟩ := h.placed (h.inside hk).1 (h.inside hk').1 hget hget'
      rw [ih hk hk']

theorem path_eq (hc : s.Chain project path m) : (s.space m).path = pathName path := by
  induction path using List.reverseRecOn generalizing m with
  | nil => rw [show m = project from hc, h.top]; rfl
  | append_singleton path x ih =>
    obtain ⟨k, hk, hget⟩ := chain_concat.mp hc
    rw [(h.nested (h.inside hk).1 hget).2.2, ih hk, pathName, pathName, List.foldl_append]
    rfl

end Merging

/-! ## One more member -/

theorem get?_push {t : Table} {x : String} :
    (t.push name sym).get? x = (t.get? x).or (if x = name then some sym else none) := by
  rw [Table.push, Table.get?, List.lookup_append, ← Table.get?]
  congr 1
  by_cases hx : x = name
  · simp [hx]
  · have hbeq : (x == name) = false := by simpa using hx
    simp [hx, List.lookup_cons, hbeq]

theorem space_pushed : (s.pushed n name sym).space m = if n = m ∧ m.index < s.spaces.size then
    { s.space m with members := (s.space m).members.push name sym } else s.space m := space_updateSpace

theorem size_pushed : (s.pushed n name sym).spaces.size = s.spaces.size := Array.size_modify

theorem grows_pushed : Grows s (s.pushed n name sym) := by
  intro m x sym' hget
  rw [space_pushed]
  split
  · rw [get?_push, hget, Option.some_or]
  · exact hget

theorem get?_pushed {x : String} (hn : n.index < s.spaces.size) : ((s.pushed n name sym).space m).members.get? x =
    ((s.space m).members.get? x).or (if n = m ∧ x = name then some sym else none) := by
  rw [space_pushed]
  by_cases hm : n = m
  · subst hm
    simp [hn, get?_push]
  · simp [hm]

theorem isFileLocal_pushed {sym' : Sym} : (s.pushed n name sym).isFileLocal sym' = s.isFileLocal sym' := by
  cases sym' <;> rfl

theorem Merging.pushed (h : Merging base project s) (hn : base.spaces.size ≤ n.index) (hroom : n.index < s.spaces.size)
    (hlocal : s.isFileLocal sym = false)
    (hspace : ∀ c, sym = .space c → n.index < c.index ∧ c.index < s.spaces.size ∧
      (s.space c).path = qualified (s.space n).path name ∧
      ∀ m x, base.spaces.size ≤ m.index → (s.space m).members.get? x ≠ some (.space c)) :
    Merging base project (s.pushed n name sym) := by
  have hpath : ∀ m, ((s.pushed n name sym).space m).path = (s.space m).path := fun m => by
    rw [space_pushed]; split <;> rfl
  have hlinks : ∀ m, ((s.pushed n name sym).space m).links = (s.space m).links := fun m => by
    rw [space_pushed]; split <;> rfl
  have hget : ∀ {m x sym'}, ((s.pushed n name sym).space m).members.get? x = some sym' →
      (s.space m).members.get? x = some sym' ∨ (m = n ∧ x = name ∧ sym' = sym) := by
    intro m x sym' hm
    rw [get?_pushed hroom, Option.or_eq_some_iff] at hm
    rcases hm with hm | ⟨-, hm⟩
    · exact .inl hm
    · split at hm
      · next he => exact .inr ⟨he.1.symm, he.2, (Option.some.inj hm).symm⟩
      · cases hm
  constructor
  · intro m hm
    rw [space_pushed, if_neg fun hc => by rw [hc.1] at hn; omega, h.old m hm]
  · exact h.others
  · exact h.first
  · rw [size_pushed]; exact h.room
  · rw [hpath, h.top]
  · exact fun m hm => by rw [hlinks, h.unlinked m hm]
  · intro m x sym' hm hx
    rw [isFileLocal_pushed]
    rcases hget hx with hx | ⟨-, -, rfl⟩
    · exact h.visible hm hx
    · exact hlocal
  · intro m x c hm hx
    rw [size_pushed, hpath, hpath]
    rcases hget hx with hx | ⟨rfl, rfl, hc⟩
    · exact h.nested hm hx
    · obtain ⟨hlt, hsize, hp, -⟩ := hspace c hc.symm
      exact ⟨hlt, hsize, hp⟩
  · intro m m' x x' c hm hm' hx hx'
    rcases hget hx with hx | ⟨rfl, rfl, hc⟩
    · rcases hget hx' with hx' | ⟨-, -, hc⟩
      · exact h.placed hm hm' hx hx'
      · exact absurd hx ((hspace c hc.symm).2.2.2 m x hm)
    · rcases hget hx' with hx' | ⟨rfl, rfl, -⟩
      · exact absurd hx' ((hspace c hc.symm).2.2.2 m' x' hm')
      · exact ⟨rfl, rfl⟩

/-- A path with a name at its end is the path that a namespace has with a name in it, or leads on through the namespace. -/
private theorem append_cons_eq_concat {x : String} (h : path ++ x :: rest = outer ++ [name]) :
    (path = outer ∧ x = name ∧ rest = []) ∨ ∃ more, outer = path ++ x :: more := by
  cases rest using List.reverseRecOn with
  | nil =>
    obtain ⟨rfl, hx⟩ := List.append_inj' h rfl
    exact .inl ⟨rfl, (List.cons.inj hx).1, rfl⟩
  | append_singleton more y =>
    rw [← List.cons_append, ← List.append_assoc] at h
    exact .inr ⟨more, (List.append_inj' h rfl).1.symm⟩

/-- A new member is declared under its name, and everything else as before. -/
theorem Merging.declared?_pushed (h : Merging base project s) (h' : Merging base project (s.pushed dst name sym))
    (hdst : s.Chain project outer dst) (hfree : (s.space dst).members.get? name = none)
    (hempty : ∀ c, sym = .space c → (s.space c).members = .empty ∧ c ≠ dst) :
    (s.pushed dst name sym).declared? project path =
      if path = outer ++ [name] then some sym.declaration else s.declared? project path := by
  have hroom := (h.inside hdst).2
  -- the path of the namespace where a lookup has arrived decides what is to be found below it
  have hbelow : ∀ n done, s.Chain project done n → (s.pushed dst name sym).declared? n path =
      if done ++ path = outer ++ [name] then some sym.declaration else s.declared? n path := by
    induction path with
    | nil =>
      intro n done hn
      rw [if_neg]
      · rfl
      · intro he
        rw [List.append_nil] at he
        subst he
        obtain ⟨k, hk, hget⟩ := chain_concat.mp hn
        rw [hk.eq hdst, hfree] at hget
        cases hget
    | cons x t ih =>
      intro n done hn
      have hnew := (h.inside hn).1
      by_cases hhere : n = dst ∧ x = name
      · obtain ⟨rfl, rfl⟩ := hhere
        obtain rfl := h.chain_inj hn hdst
        have hin : (s.pushed n x sym).exported? n x = some sym := by
          rw [h'.exported?_new hnew, get?_pushed hroom, hfree]
          simp
        have hout : s.exported? n x = none := by rw [h.exported?_new hnew, hfree]
        rw [declared?_none hout]
        cases sym with
        | space c =>
          obtain ⟨hc, hne⟩ := hempty c rfl
          rw [declared?, hin]
          cases t with
          | nil => simp [declared?, Sym.declaration]
          | cons y u =>
            have hnone : (s.pushed n x (.space c)).exported? c y = none := by
              rw [exported?, get?_pushed hroom, hc]
              simp [empty_get?, Ne.symm hne]
            simp [declared?_none hnone]
        | _ => rw [declared?_leaf hin (by simp)]; simp [Sym.declaration]
      · have hsame : (s.pushed dst name sym).exported? n x = s.exported? n x := by
          rw [h'.exported?_new hnew, h.exported?_new hnew, get?_pushed hroom,
            if_neg fun hc => hhere ⟨hc.1.symm, hc.2⟩, Option.or_none]
        -- only a namespace can be on the way to the new member
        have hway : done ++ x :: t = outer ++ [name] → ∃ c, s.exported? n x = some (.space c) := by
          intro he
          rcases append_cons_eq_concat he with ⟨rfl, rfl, -⟩ | ⟨more, rfl⟩
          · exact absurd ⟨hn.eq hdst, rfl⟩ hhere
          · obtain ⟨k, hk, c, hget, -⟩ := chain_append.mp hdst
            rw [hk.eq hn] at hget
            exact ⟨c, exported?_space hget⟩
        cases hx : s.exported? n x with
        | none =>
          rw [declared?_none (hsame.trans hx), declared?_none hx, if_neg fun he => by simpa [hx] using hway he]
        | some a =>
          by_cases ha : ∀ c, a ≠ .space c
          · rw [declared?_leaf (hsame.trans hx) ha, declared?_leaf hx ha,
              if_neg fun he => (hway he).elim fun c hc => ha c (Option.some.inj (hx.symm.trans hc))]
          · push Not at ha
            obtain ⟨c, rfl⟩ := ha
            have hc : (s.space n).members.get? x = some (.space c) := by rw [← h.exported?_new hnew, hx]
            have hdeep := ih c (done ++ [x]) (chain_concat.mpr ⟨n, hn, hc⟩)
            rw [declared?, hsame, hx, declared?, hx]
            simpa using hdeep
  exact hbelow project [] rfl

/-! ## New namespaces -/

section Added

variable {x : Namespace}

theorem get?_added (hx : x.members = .empty) :
    ((addSpace x s).2.space n).members.get? name = (s.space n).members.get? name := by
  rw [space_addSpace]
  split
  · next hn =>
    have hnone : s.space n = default := by simp [space, hn]
    rw [hx, hnone]
    rfl
  · rfl

theorem declared?_added (hx : x.members = .empty) : (addSpace x s).2.declared? n path = s.declared? n path := by
  have hlocal : ∀ sym, (addSpace x s).2.isFileLocal sym = s.isFileLocal sym := fun sym => by cases sym <;> rfl
  have hexp : ∀ n y, (addSpace x s).2.exported? n y = s.exported? n y := fun n y => by
    simp only [exported?, get?_added hx, hlocal]
  induction path generalizing n with
  | nil => rfl
  | cons y t ih =>
    rw [declared?, declared?, hexp]
    simp only [ih]

theorem size_added : (addSpace x s).2.spaces.size = s.spaces.size + 1 := Array.size_push _

theorem Merging.added (h : Merging base project s) (hx : x.members = .empty) (hlinks : x.links = []) :
    Merging base project (addSpace x s).2 := by
  have hroom := h.room
  have hfirst := h.first
  constructor
  · intro n hn
    rw [space_addSpace, if_neg (by omega), h.old n hn]
  · exact h.others
  · exact hfirst
  · rw [size_added]; omega
  · rw [space_addSpace, if_neg (by omega), h.top]
  · intro n hn
    rw [space_addSpace]
    split
    · exact hlinks
    · exact h.unlinked n hn
  · intro n y sym hn hy
    rw [get?_added hx] at hy
    have := h.visible hn hy
    cases sym <;> exact this
  · intro n y c hn hy
    rw [get?_added hx] at hy
    obtain ⟨hlt, hsize, hpath⟩ := h.nested hn hy
    rw [size_added, space_addSpace, if_neg (by omega), space_addSpace, if_neg (by omega)]
    exact ⟨hlt, by omega, hpath⟩
  · intro n n' y y' c hn hn' hy hy'
    rw [get?_added hx] at hy hy'
    exact h.placed hn hn' hy hy'

end Added

/-- The store after a nested namespace was made under a name that is free. -/
def opened (s : Store) (n : NamespaceId) (name : String) : Store :=
  (addSpace (s.nested n name) s).2.pushed n name (.space ⟨s.spaces.size⟩)

theorem Merging.opened (h : Merging base project s) (hdst : s.Chain project outer dst)
    (hfree : (s.space dst).members.get? name = none) :
    Merging base project (s.opened dst name) ∧ Grows s (s.opened dst name) ∧
      (s.opened dst name).Chain project (outer ++ [name]) ⟨s.spaces.size⟩ ∧
      ∀ path, (s.opened dst name).declared? project path =
        if path = outer ++ [name] then some .space else s.declared? project path := by
  obtain ⟨hnew, hroom⟩ := h.inside hdst
  have hempty : (s.nested dst name).members = .empty := rfl
  have hadded := h.added hempty rfl
  have hgrows : Grows s (addSpace (s.nested dst name) s).2 := fun hg => by rwa [get?_added hempty]
  have hroom' : dst.index < (addSpace (s.nested dst name) s).2.spaces.size := by rw [size_added]; omega
  have hmade : (addSpace (s.nested dst name) s).2.space ⟨s.spaces.size⟩ = s.nested dst name := by
    rw [space_addSpace, if_pos rfl]
  have hm : Merging base project (s.opened dst name) := by
    refine hadded.pushed hnew hroom' rfl ?_
    rintro c hc
    cases hc
    refine ⟨hroom, by rw [size_added]; exact Nat.lt_succ_self _, ?_, fun m x hm hx => ?_⟩
    · rw [hmade, space_addSpace, if_neg (by omega)]
      rfl
    · rw [get?_added hempty] at hx
      exact Nat.lt_irrefl _ (h.nested hm hx).2.1
  refine ⟨hm, hgrows.trans grows_pushed, ?_, fun path => ?_⟩
  · refine chain_concat.mpr ⟨dst, hdst.mono (hgrows.trans grows_pushed), ?_⟩
    rw [Store.opened, get?_pushed hroom', get?_added hempty, hfree]
    simp
  · rw [Store.opened, hadded.declared?_pushed hm (hdst.mono hgrows) (by rw [get?_added hempty, hfree]), declared?_added hempty]
    · rfl
    · rintro c hc
      cases hc
      refine ⟨by rw [hmade]; rfl, fun he => ?_⟩
      rw [← he] at hroom
      exact Nat.lt_irrefl _ hroom

/-! ## Merging one declaration -/

section Entry

variable {into : NamespaceId → NamespaceId → Symbols (List Collision)} {a : Sym}

theorem mergeEntry_local (h : s.isFileLocal sym = true) : mergeEntry into dst (name, sym) s = ([], s) := by
  change (if s.isFileLocal sym then _ else _ : Symbols (List Collision)) s = _
  rw [if_pos h]
  rfl

theorem mergeEntry_opens (h : (s.space dst).members.get? name = none) :
    mergeEntry into dst (name, .space n) s = into ⟨s.spaces.size⟩ n (s.opened dst name) := by
  rw [mergeEntry, get_bind_apply, if_neg (by simp [isFileLocal])]
  simp only [h]
  rw [then_apply, child_apply, h]
  rfl

theorem mergeEntry_takes (hlocal : s.isFileLocal sym = false) (hsym : ∀ n, sym ≠ .space n)
    (h : (s.space dst).members.get? name = none) : mergeEntry into dst (name, sym) s = ([], s.pushed dst name sym) := by
  change (if s.isFileLocal sym then _ else _ : Symbols (List Collision)) s = _
  rw [if_neg (by simp [hlocal]), h]
  cases sym with
  | space n => exact absurd rfl (hsym n)
  | _ => rfl

theorem mergeEntry_descends (h : (s.space dst).members.get? name = some (.space c)) :
    mergeEntry into dst (name, .space n) s = into c n s := by
  rw [mergeEntry, get_bind_apply, if_neg (by simp [isFileLocal])]
  simp only [h]

theorem mergeEntry_clashes (hlocal : s.isFileLocal sym = false) (h : (s.space dst).members.get? name = some a)
    (hne : ¬(a.declaration = .space ∧ sym.declaration = .space)) :
    mergeEntry into dst (name, sym) s = ([⟨qualified (s.space dst).path name, a, sym⟩], s) := by
  change (if s.isFileLocal sym then _ else _ : Symbols (List Collision)) s = _
  rw [if_neg (by simp [hlocal]), h]
  cases a with
  | space c =>
    cases sym with
    | space n => exact absurd ⟨rfl, rfl⟩ hne
    | _ => rfl
  | _ => rfl

end Entry

/-- What merging the declarations of a namespace under some names into the namespace of a path results in. -/
structure Merges (base : Store) (project : NamespaceId) (outer : List String) (names : String → Prop) (B : Declarations)
    (s : Store) (r : List Collision × Store) : Prop where
  merging : Merging base project r.2
  grows : Grows s r.2
  laid : Declarations.Laid outer names B (s.declared? project) (r.2.declared? project) (r.1.map Collision.name)

section Merging

variable {src : NamespaceId} {into : NamespaceId → NamespaceId → Symbols (List Collision)} {names : String → Prop}
  {B : Declarations}

theorem Merges.unchanged (h : Merging base project s) {cs : List Collision}
    (hlaid : Declarations.Laid outer names B (s.declared? project) (s.declared? project) (cs.map Collision.name)) :
    Merges base project outer names B s (cs, s) := ⟨h, id, hlaid⟩

theorem isFileLocal_congr (hs : { s with spaces := base.spaces } = base) : s.isFileLocal sym = base.isFileLocal sym := by
  rw [← hs]
  cases sym <;> rfl

theorem declaration_leaf (hsym : ∀ c, sym ≠ .space c) : sym.declaration = .leaf sym := by
  cases sym with
  | space c => exact absurd rfl (hsym c)
  | _ => rfl

theorem eq_space_of_declaration (h : sym.declaration = .space) : ∃ n, sym = .space n := by
  cases sym with
  | space n => exact ⟨n, rfl⟩
  | _ => cases h

theorem merges_mergeEntry (hget : (base.space src).members.get? name = some sym)
    (hinto : ∀ n, sym = .space n → ∀ {s c outer}, Merging base project s → s.Chain project outer c →
      Merges base project outer (fun _ => True) (base.declared? n) s (into c n s))
    (h : Merging base project s) (hdst : s.Chain project outer dst) :
    Merges base project outer (· = name) (base.declared? src) s (mergeEntry into dst (name, sym) s) := by
  have hA : ((s.declared? project).under outer).Nested := under_chain hdst ▸ nested_declared?
  have hB : (base.declared? src).Nested := nested_declared?
  cases hlocal : s.isFileLocal sym with
  | true =>
    have hhidden : base.exported? src name = none := by
      rw [exported?, hget]
      simp [← isFileLocal_congr h.others, hlocal]
    have hnone : ∀ t, base.declared? src (name :: t) = none := fun t => declared?_none hhidden
    rw [mergeEntry_local hlocal]
    refine .unchanged h (.unchanged ?_ ?_)
    · rintro x t rfl
      exact Declarations.overlay_stays hA (fun y u => hnone _) (.inr (hnone _))
    · rintro x t rfl ⟨a, b, -, hb, -⟩
      rw [hnone] at hb
      cases hb
  | false =>
    have hseen : base.exported? src name = some sym := by
      rw [exported?, hget]
      simp [← isFileLocal_congr h.others, hlocal]
    have hname : base.declared? src [name] = some sym.declaration := by rw [declared?_name, hseen, Option.map_some]
    have hthere : s.declared? project (outer ++ [name]) =
        ((s.space dst).members.get? name).map Sym.declaration := by
      rw [declared?_chain hdst, declared?_name, h.exported?_new (h.inside hdst).1]
    cases hin : (s.space dst).members.get? name with
    | none =>
      have hfree : s.declared? project (outer ++ [name]) = none := by rw [hthere, hin, Option.map_none]
      by_cases hsym : ∀ n, sym ≠ .space n
      · have hpushed : Merging base project (s.pushed dst name sym) :=
          h.pushed (h.inside hdst).1 (h.inside hdst).2 hlocal fun c hc => absurd hc (hsym c)
        rw [mergeEntry_takes hlocal hsym hin]
        refine ⟨hpushed, grows_pushed, .taken hA hB hfree (hname.trans (by rw [declaration_leaf hsym])) fun path => ?_⟩
        rw [← declaration_leaf hsym]
        exact h.declared?_pushed hpushed hdst hin fun c hc => absurd hc (hsym c)
      · push Not at hsym
        obtain ⟨n, rfl⟩ := hsym
        obtain ⟨hopened, hgrows, hchain, hdeclared⟩ := h.opened hdst hin
        have hrest := hinto n rfl hopened hchain
        rw [← declared?_under hseen] at hrest
        rw [mergeEntry_opens hin]
        refine ⟨hrest.merging, hgrows.trans hrest.grows, ?_⟩
        exact (hrest.laid.outward (by rw [hdeclared, if_pos rfl]) hname).opened hA hB hfree hname hdeclared
    | some a =>
      have hold : s.declared? project (outer ++ [name]) = some a.declaration := by rw [hthere, hin, Option.map_some]
      by_cases hboth : a.declaration = .space ∧ sym.declaration = .space
      · obtain ⟨c, rfl⟩ := eq_space_of_declaration hboth.1
        obtain ⟨n, rfl⟩ := eq_space_of_declaration hboth.2
        have hrest := hinto n rfl h (chain_concat.mpr ⟨dst, hdst, hin⟩)
        rw [← declared?_under hseen] at hrest
        rw [mergeEntry_descends hin]
        exact ⟨hrest.merging, hrest.grows, hrest.laid.outward hold hname⟩
      · have hpath : qualified (s.space dst).path name = pathName (outer ++ [name]) := by
          rw [h.path_eq hdst, pathName, pathName, List.foldl_append]
          rfl
        rw [mergeEntry_clashes hlocal hin hboth, hpath]
        exact .unchanged h (.refused hA hB ⟨_, _, hold, hname, hboth⟩)

theorem merges_mapM {f : String × Sym → Symbols (List Collision)} {es : List (String × Sym)}
    (hstep : ∀ e ∈ es, ∀ {s}, Merging base project s → s.Chain project outer dst →
      Merges base project outer (· = e.1) B s (f e s))
    (hnodup : (es.map Prod.fst).Nodup) (h : Merging base project s) (hdst : s.Chain project outer dst) :
    Merges base project outer (· ∈ es.map Prod.fst) B s ((es.mapM f s).1.flatten, (es.mapM f s).2) := by
  induction es generalizing s with
  | nil => exact .unchanged h (.unchanged (fun _ _ hx => absurd hx List.not_mem_nil) fun _ _ hx => absurd hx List.not_mem_nil)
  | cons e es ih =>
    rw [List.map_cons, List.nodup_cons] at hnodup
    have hfirst := hstep e List.mem_cons_self h hdst
    have hrest := ih (fun e' he' => hstep e' (List.mem_cons_of_mem _ he')) hnodup.2 hfirst.merging (hdst.mono hfirst.grows)
    have hrun : (e :: es).mapM f s = ((f e s).1 :: (es.mapM f (f e s).2).1, (es.mapM f (f e s).2).2) := by
      rw [List.mapM_cons]
      rfl
    rw [hrun]
    refine ⟨hrest.merging, Grows.trans hfirst.grows hrest.grows, ?_⟩
    have hboth := hfirst.laid.trans hrest.laid fun x hx hmem => hnodup.1 (hx ▸ hmem)
    simpa [List.mem_cons] using hboth

theorem get?_of_mem {t : Table} (hnodup : (t.entries.map Prod.fst).Nodup) (h : (name, sym) ∈ t.entries) :
    t.get? name = some sym := by
  obtain ⟨l₁, l₂, he⟩ := List.append_of_mem h
  rw [Table.get?, List.lookup_eq_some_iff]
  refine ⟨l₁, l₂, he, fun e hmem => ?_⟩
  rw [he, List.map_append, List.nodup_append] at hnodup
  have hne : e.1 ≠ name := hnodup.2.2 e.1 (List.mem_map_of_mem hmem) name (by simp)
  exact bne_iff_ne.mpr hne.symm

theorem merges_mergeDepth (hbase : base.Nesting) {d : Nat} (hsrc : src.index < base.spaces.size)
    (hd : ∀ path m, base.Chain src path m → path.length < d) (h : Merging base project s)
    (hdst : s.Chain project outer dst) :
    Merges base project outer (fun _ => True) (base.declared? src) s (mergeDepth d dst src s) := by
  induction d generalizing s dst src outer with
  | zero => exact absurd (hd [] src rfl) (Nat.not_lt_zero _)
  | succ d ih =>
    have hrun : mergeDepth (d + 1) dst src s = (((s.space src).members.entries.mapM (mergeEntry (mergeDepth d) dst) s).1.flatten,
        ((s.space src).members.entries.mapM (mergeEntry (mergeDepth d) dst) s).2) := rfl
    rw [hrun, h.old src hsrc]
    have hall : Merges base project outer (· ∈ (base.space src).members.entries.map Prod.fst) (base.declared? src) s
        (((base.space src).members.entries.mapM (mergeEntry (mergeDepth d) dst) s).1.flatten,
          ((base.space src).members.entries.mapM (mergeEntry (mergeDepth d) dst) s).2) := by
      refine merges_mapM (fun e he {s} hs hc => ?_) (hbase.unique src) h hdst
      have hget := get?_of_mem (hbase.unique src) he
      refine merges_mergeEntry hget (fun n hn {s c outer} hs hc => ?_) hs hc
      rw [hn] at hget
      exact ih (hbase.made hget) (fun path m hm => Nat.succ_lt_succ_iff.mp (hd (e.1 :: path) m ⟨n, hget, hm⟩)) hs hc
    refine ⟨hall.merging, hall.grows, hall.laid.whole (under_chain hdst ▸ nested_declared?) fun x t hx => ?_⟩
    refine declared?_none ?_
    by_contra hne
    obtain ⟨a, ha⟩ := Option.ne_none_iff_exists'.mp hne
    exact hx (List.mem_map.mpr ⟨_, exported?_mem ha, rfl⟩)

end Merging

end Store

end Weft
