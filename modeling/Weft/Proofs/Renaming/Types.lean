import Weft.Proofs.Renaming.Placements
import Weft.Proofs.Renaming.Statements

/-!
# Analyses and types in step

Two analyses of a unit, on symbols of different identities, go on in step: they give the same results and report the same
problems, and the symbols that they change stay related.
-/

namespace Weft.Analysis

/-- The second analysis does with renamed symbols what the first does with the symbols, and stores that are related stay so. -/
def Relates (σ : Renaming) (R : Store → Store → Prop) {α β : Type} (f : α → β) (m : Analysis α) (m' : Analysis β) : Prop :=
  ∀ file sc s s' bs, R s s' → ∃ r s₁ s₁' bs₁ ds,
    @Eq (Reported (Except Typed.ArgumentsError α × State)) (m ⟨file, sc⟩ ⟨s, bs⟩) ⟨(r, ⟨s₁, bs₁⟩), ds⟩ ∧
      @Eq (Reported (Except Typed.ArgumentsError β × State))
        (m' ⟨file, sc.rename σ⟩ ⟨s', bs.map (Body.rename σ)⟩) ⟨(r.map f, ⟨s₁', bs₁.map (Body.rename σ)⟩), ds⟩ ∧
      R s₁ s₁'

/-- The second computation does with a renamed unit what the first does with the unit. -/
def RelatesUnit (σ : Renaming) (R : Store → Store → Prop) {α β : Type} (f : α → β) (m : OnUnit α) (m' : OnUnit β) : Prop :=
  ∀ u s s', R s s' → ∃ a u₁ s₁ s₁', m u s = ((a, u₁), s₁) ∧ m' (u.rename σ) s' = ((f a, u₁.rename σ), s₁') ∧ R s₁ s₁'

section Relates

variable {σ : Renaming} {R : Store → Store → Prop} {α β γ δ ι κ : Type} {f : α → β} {g : γ → δ} {span : Span}

theorem relates_of_carries {m : Analysis α} {m' : Analysis β} (h : ∀ s s', R s s' → Carries σ s s' f m m') :
    Relates σ R f m m' := by
  intro file sc s s' bs hR
  obtain ⟨r, bs₁, ds, hrun, hrun'⟩ := h s s' hR file sc bs
  exact ⟨r, s, s', bs₁, ds, hrun, hrun', hR⟩

theorem relates_pure {a : α} {b : β} (h : b = f a) : Relates σ R f (pure a) (pure b) :=
  relates_of_carries fun _ _ _ => carries_pure h

theorem Relates.bind {m : Analysis α} {m' : Analysis β} {k : α → Analysis γ} {k' : β → Analysis δ}
    (hm : Relates σ R f m m') (hk : ∀ a, Relates σ R g (k a) (k' (f a))) : Relates σ R g (m >>= k) (m' >>= k') := by
  intro file sc s s' bs hR
  obtain ⟨r, s₁, s₁', bs₁, ds, hrun, hrun', hR₁⟩ := hm file sc s s' bs hR
  cases r with
  | error e =>
    refine ⟨.error e, s₁, s₁', bs₁, ds, ?_, ?_, hR₁⟩
    · rw [bind_run, hrun]
    · rw [bind_run, hrun']
      rfl
  | ok a =>
    obtain ⟨r, s₂, s₂', bs₂, ds₂, hrun₂, hrun₂', hR₂⟩ := hk a file sc s₁ s₁' bs₁ hR₁
    refine ⟨r, s₂, s₂', bs₂, ds ++ ds₂, ?_, ?_, hR₂⟩
    · rw [bind_run, hrun]
      simp only [hrun₂]
    · rw [bind_run, hrun']
      simp only [Except.map, hrun₂']

theorem relates_store_bind {k : Store → Analysis γ} {k' : Store → Analysis δ}
    (hk : ∀ s s', R s s' → Relates σ R g (k s) (k' s')) : Relates σ R g (store >>= k) (store >>= k') :=
  fun file sc s s' bs hR => hk s s' hR file sc s s' bs hR

/-- A computation on the symbols. -/
theorem relates_symbols {m : Symbols α} {m' : Symbols β} (h : ∀ s s', R s s' → (m' s').1 = f (m s).1 ∧ R (m s).2 (m' s').2) :
    Relates σ R f (symbols m) (symbols m') := by
  intro file sc s s' bs hR
  obtain ⟨hresult, hR₁⟩ := h s s' hR
  refine ⟨.ok (m s).1, (m s).2, (m' s').2, bs, [], rfl, ?_, hR₁⟩
  rw [Except.map, ← hresult]
  rfl

theorem relates_forM {k : ι → Analysis PUnit} {l : κ → Analysis PUnit} {h : ι → κ} (xs : List ι)
    (hk : ∀ x ∈ xs, Relates σ R id (k x) (l (h x))) : Relates σ R id (xs.forM k) ((xs.map h).forM l) := by
  induction xs with
  | nil => exact relates_pure rfl
  | cons x xs ih =>
    exact (hk x List.mem_cons_self).bind fun _ => ih fun y hy => hk y (List.mem_cons_of_mem _ hy)

/-! ## Units -/

theorem relatesUnit_pure {a : α} {b : β} (h : b = f a) : RelatesUnit σ R f (pure a) (pure b) :=
  fun u s s' hR => ⟨a, u, s, s', rfl, by rw [h]; rfl, hR⟩

theorem RelatesUnit.bind {m : OnUnit α} {m' : OnUnit β} {k : α → OnUnit γ} {l : β → OnUnit δ}
    (hm : RelatesUnit σ R f m m') (hk : ∀ a, RelatesUnit σ R g (k a) (l (f a))) :
    RelatesUnit σ R g (m >>= k) (m' >>= l) := by
  intro u s s' hR
  obtain ⟨a, u₁, s₁, s₁', hrun, hrun', hR₁⟩ := hm u s s' hR
  obtain ⟨b, u₂, s₂, s₂', hrun₂, hrun₂', hR₂⟩ := hk a u₁ s₁ s₁' hR₁
  refine ⟨b, u₂, s₂, s₂', ?_, ?_, hR₂⟩
  · change k (m u s).1.1 (m u s).1.2 (m u s).2 = _
    rw [hrun, hrun₂]
  · change l (m' (u.rename σ) s').1.1 (m' (u.rename σ) s').1.2 (m' (u.rename σ) s').2 = _
    rw [hrun', hrun₂']

/-- An analysis of a unit goes on in step, also when it breaks off. -/
theorem Relates.attempt {m : Analysis α} {m' : Analysis β} (hm : Relates σ R f m m') {sc : Scope} {fallback : α}
    {fallback' : β} (hfallback : fallback' = f fallback) :
    RelatesUnit σ R f (Analysis.attempt sc fallback m) (Analysis.attempt (sc.rename σ) fallback' m') := by
  subst hfallback
  intro u s s' hR
  cases hbroken : u.broken with
  | true =>
    have hbroken' : (u.rename σ).broken = true := hbroken
    exact ⟨fallback, u, s, s', attempt_broken hbroken, attempt_broken hbroken', hR⟩
  | false =>
    have hbroken' : (u.rename σ).broken = false := hbroken
    obtain ⟨r, s₁, s₁', bs₁, ds, hrun, hrun', hR₁⟩ := hm u.file sc s s' [] hR
    have hrun'' : m' ⟨(u.rename σ).file, sc.rename σ⟩ ⟨s', []⟩ = ⟨(r.map f, ⟨s₁', bs₁.map (Body.rename σ)⟩), ds⟩ := hrun'
    rw [attempt_eq hbroken, attempt_eq hbroken', hrun, hrun'']
    cases r with
    | ok a => exact ⟨_, _, _, _, rfl, rfl, hR₁⟩
    | error e => exact ⟨_, _, _, _, rfl, rfl, hR₁⟩

theorem relatesUnit_forM {k : ι → OnUnit PUnit} {k' : κ → OnUnit PUnit} {h : ι → κ} (xs : List ι)
    (hk : ∀ x ∈ xs, RelatesUnit σ R id (k x) (k' (h x))) : RelatesUnit σ R id (xs.forM k) ((xs.map h).forM k') := by
  induction xs with
  | nil => exact relatesUnit_pure rfl
  | cons x xs ih =>
    exact (hk x List.mem_cons_self).bind fun _ => ih fun y hy => hk y (List.mem_cons_of_mem _ hy)

theorem relatesUnit_mapM {k : ι → OnUnit α} {k' : κ → OnUnit β} {h : ι → κ} (xs : List ι)
    (hk : ∀ x ∈ xs, RelatesUnit σ R f (k x) (k' (h x))) :
    RelatesUnit σ R (List.map f) (xs.mapM k) ((xs.map h).mapM k') := by
  induction xs with
  | nil => exact relatesUnit_pure rfl
  | cons x xs ih =>
    rw [List.map_cons, List.mapM_cons, List.mapM_cons]
    refine (hk x List.mem_cons_self).bind fun a => ?_
    refine (ih fun y hy => hk y (List.mem_cons_of_mem _ hy)).bind fun as => relatesUnit_pure rfl

theorem relatesUnit_modify {k k' : FileUnit → FileUnit} (h : ∀ u, k' (u.rename σ) = (k u).rename σ) :
    RelatesUnit σ R id (modify k : OnUnit PUnit) (modify k') :=
  fun u s s' hR => ⟨(), k u, s, s', rfl, by rw [← h]; rfl, hR⟩

/-- A fresh unit and the renamed one go through a change of their declarations in step. -/
theorem mapItems_rename {k k' : List Item → OnUnit (List Item)} {u : FileUnit} {tree : Tree.File} {items : List Item}
    {imports : List Imported} {s s' : Store} (hsrc : u.source = .fresh tree items imports)
    (hk : RelatesUnit σ R (List.map (Item.rename σ)) (k items) (k' (items.map (Item.rename σ)))) (hR : R s s') :
    (mapItems k' (u.rename σ) s').1.2 = (mapItems k u s).1.2.rename σ ∧ R (mapItems k u s).2 (mapItems k' (u.rename σ) s').2 := by
  have hfirst : mapItems k u s = (do
      let items ← k items
      modify ({ · with source := .fresh tree items imports }) : OnUnit PUnit) u s := by
    obtain ⟨file, module, diags, broken, source⟩ := u
    obtain rfl : source = _ := hsrc
    rfl
  have hsecond : mapItems k' (u.rename σ) s' = (do
      let items ← k' (items.map (Item.rename σ))
      modify ({ · with source := .fresh tree items (imports.map (Imported.rename σ)) }) : OnUnit PUnit) (u.rename σ) s' := by
    obtain ⟨file, module, diags, broken, source⟩ := u
    obtain rfl : source = _ := hsrc
    rfl
  rw [hfirst, hsecond]
  have hset : ∀ items : List Item, RelatesUnit σ R id (modify ({ · with source := .fresh tree items imports }) : OnUnit PUnit)
      (modify ({ · with source := .fresh tree (items.map (Item.rename σ)) (imports.map (Imported.rename σ)) })) :=
    fun items => relatesUnit_modify fun _ => rfl
  obtain ⟨_, u₁, s₁, s₁', hrun, hrun', hR₁⟩ := RelatesUnit.bind
    (k := fun items => modify ({ · with source := .fresh tree items imports }))
    (l := fun items => modify ({ · with source := .fresh tree items (imports.map (Imported.rename σ)) })) hk hset u s s' hR
  rw [hrun, hrun']
  exact ⟨rfl, hR₁⟩

end Relates

end Weft.Analysis

/-!
## Types and bases that are found

The phases that find types and bases change nothing else of the symbols, and each unit changes its own symbols only.
-/

namespace Weft

/-- What is left of owned symbols under other identities. -/
def Renaming.image (σ : Renaming) (own : SymKind → Nat → Prop) (k : SymKind) (i : Nat) : Prop :=
  ∃ j, own k j ∧ σ.index k j = i

namespace Store

/-- The second store differs from the first in the types and bases of owned symbols only. -/
structure Revised (own : SymKind → Nat → Prop) (s s' : Store) : Prop where
  count : ∀ k, s'.count k = s.count k
  spaces : s'.spaces = s.spaces
  enums : s'.enums = s.enums
  func : ∀ f, ∃ sig, s'.func f = { s.func f with sig } ∧ (own .func f.index ∨ sig = (s.func f).sig)
  global : ∀ g, ∃ type, s'.global g = { s.global g with type } ∧ (own .global g.index ∨ type = (s.global g).type)
  field : ∀ f, ∃ type, s'.field f = { s.field f with type } ∧ (own .field f.index ∨ type = (s.field f).type)
  cls : ∀ c, ∃ super implements, s'.cls c = { s.cls c with super, implements } ∧
    (own .cls c.index ∨ super = (s.cls c).super ∧ implements = (s.cls c).implements)
  iface : ∀ i, ∃ bases, s'.iface i = { s.iface i with bases } ∧ (own .iface i.index ∨ bases = (s.iface i).bases)

/-- Renamed symbols that are owned have renamed types. -/
structure TypesAgree (σ : Renaming) (own : SymKind → Nat → Prop) (s s' : Store) : Prop where
  func : ∀ f, own .func f.index → (s'.func (σ.func f)).sig = (s.func f).sig.map (Signature.rename σ)
  global : ∀ g, own .global g.index → (s'.global (σ.global g)).type = (s.global g).type.map (Ty.rename σ)
  field : ∀ f, own .field f.index → (s'.field (σ.field f)).type = (s.field f).type.map (Ty.rename σ)

/-- Renamed classes and interfaces that are owned have renamed bases. -/
structure BasesAgree (σ : Renaming) (own : SymKind → Nat → Prop) (s s' : Store) : Prop where
  super : ∀ c, own .cls c.index → (s'.cls (σ.cls c)).super = (s.cls c).super.map σ.cls
  implements : ∀ c, own .cls c.index → (s'.cls (σ.cls c)).implements = (s.cls c).implements.map σ.iface
  bases : ∀ i, own .iface i.index → (s'.iface (σ.iface i)).bases = (s.iface i).bases.map σ.iface

variable {σ : Renaming} {own own' : SymKind → Nat → Prop} {s s' s'' t t' : Store}

namespace Revised

theorem refl (s : Store) : s.Revised own s where
  count _ := rfl
  spaces := rfl
  enums := rfl
  func _ := ⟨_, rfl, .inr rfl⟩
  global _ := ⟨_, rfl, .inr rfl⟩
  field _ := ⟨_, rfl, .inr rfl⟩
  cls _ := ⟨_, _, rfl, .inr ⟨rfl, rfl⟩⟩
  iface _ := ⟨_, rfl, .inr rfl⟩

theorem trans (h : s.Revised own s') (h' : s'.Revised own s'') : s.Revised own s'' where
  count k := (h'.count k).trans (h.count k)
  spaces := h'.spaces.trans h.spaces
  enums := h'.enums.trans h.enums
  func f := by
    obtain ⟨sig, hf, hs⟩ := h.func f
    obtain ⟨sig', hf', hs'⟩ := h'.func f
    rw [hf] at hf' hs'
    exact ⟨sig', hf', hs.elim .inl fun hs => hs'.imp_right (·.trans hs)⟩
  global g := by
    obtain ⟨type, hg, ht⟩ := h.global g
    obtain ⟨type', hg', ht'⟩ := h'.global g
    rw [hg] at hg' ht'
    exact ⟨type', hg', ht.elim .inl fun ht => ht'.imp_right (·.trans ht)⟩
  field f := by
    obtain ⟨type, hf, ht⟩ := h.field f
    obtain ⟨type', hf', ht'⟩ := h'.field f
    rw [hf] at hf' ht'
    exact ⟨type', hf', ht.elim .inl fun ht => ht'.imp_right (·.trans ht)⟩
  cls c := by
    obtain ⟨super, implements, hc, hb⟩ := h.cls c
    obtain ⟨super', implements', hc', hb'⟩ := h'.cls c
    rw [hc] at hc' hb'
    exact ⟨super', implements', hc', hb.elim .inl fun hb => hb'.imp_right fun hb' => ⟨hb'.1.trans hb.1, hb'.2.trans hb.2⟩⟩
  iface i := by
    obtain ⟨bases, hi, hb⟩ := h.iface i
    obtain ⟨bases', hi', hb'⟩ := h'.iface i
    rw [hi] at hi' hb'
    exact ⟨bases', hi', hb.elim .inl fun hb => hb'.imp_right (·.trans hb)⟩

theorem mono (h : s.Revised own s') (hown : ∀ k i, own k i → own' k i) : s.Revised own' s' where
  count := h.count
  spaces := h.spaces
  enums := h.enums
  func f := let ⟨sig, heq, hf⟩ := h.func f; ⟨sig, heq, hf.imp_left (hown _ _)⟩
  global g := let ⟨type, heq, hg⟩ := h.global g; ⟨type, heq, hg.imp_left (hown _ _)⟩
  field f := let ⟨type, heq, hf⟩ := h.field f; ⟨type, heq, hf.imp_left (hown _ _)⟩
  cls c := let ⟨super, implements, heq, hc⟩ := h.cls c; ⟨super, implements, heq, hc.imp_left (hown _ _)⟩
  iface i := let ⟨bases, heq, hi⟩ := h.iface i; ⟨bases, heq, hi.imp_left (hown _ _)⟩

theorem union (h : s.Revised own s') (h' : s'.Revised own' s'') : s.Revised (fun k i => own k i ∨ own' k i) s'' :=
  (h.mono fun _ _ => .inl).trans (h'.mono fun _ _ => .inr)

theorem space (h : s.Revised own s') (n : NamespaceId) : s'.space n = s.space n := by rw [Store.space, h.spaces, Store.space]

theorem enumeration (h : s.Revised own s') (e : EnumId) : s'.enumeration e = s.enumeration e := by
  rw [Store.enumeration, h.enums, Store.enumeration]

theorem members (h : s.Revised own s') (c : ClassId) : (s'.cls c).members = (s.cls c).members := by
  obtain ⟨_, _, hc, -⟩ := h.cls c
  rw [hc]

theorem sig (h : s.Revised own s') {f : FuncId} (hf : ¬own .func f.index) : (s'.func f).sig = (s.func f).sig := by
  obtain ⟨sig, heq, hsig⟩ := h.func f
  rw [heq]
  exact hsig.resolve_left hf

theorem globalType (h : s.Revised own s') {g : GlobalId} (hg : ¬own .global g.index) :
    (s'.global g).type = (s.global g).type := by
  obtain ⟨type, heq, htype⟩ := h.global g
  rw [heq]
  exact htype.resolve_left hg

theorem fieldType (h : s.Revised own s') {f : FieldId} (hf : ¬own .field f.index) : (s'.field f).type = (s.field f).type := by
  obtain ⟨type, heq, htype⟩ := h.field f
  rw [heq]
  exact htype.resolve_left hf

theorem super (h : s.Revised own s') {c : ClassId} (hc : ¬own .cls c.index) : (s'.cls c).super = (s.cls c).super := by
  obtain ⟨_, _, heq, hb⟩ := h.cls c
  rw [heq]
  exact (hb.resolve_left hc).1

theorem implements (h : s.Revised own s') {c : ClassId} (hc : ¬own .cls c.index) :
    (s'.cls c).implements = (s.cls c).implements := by
  obtain ⟨_, _, heq, hb⟩ := h.cls c
  rw [heq]
  exact (hb.resolve_left hc).2

theorem bases (h : s.Revised own s') {i : InterfaceId} (hi : ¬own .iface i.index) : (s'.iface i).bases = (s.iface i).bases := by
  obtain ⟨_, heq, hb⟩ := h.iface i
  rw [heq]
  exact hb.resolve_left hi

/-- Types and bases do not matter to names, on either side. -/
theorem named_left (h : s.Revised own s') (hn : s.Named σ t) : s'.Named σ t where
  space n := by rw [h.space]; exact hn.space n
  enumeration e := by rw [h.enumeration]; exact hn.enumeration e
  func f := by
    obtain ⟨_, heq, -⟩ := h.func f
    obtain ⟨sig, index, hf⟩ := hn.func f
    exact ⟨sig, index, by rw [hf, heq]; rfl⟩
  global g := by
    obtain ⟨_, heq, -⟩ := h.global g
    obtain ⟨type, hg⟩ := hn.global g
    exact ⟨type, by rw [hg, heq]; rfl⟩
  field f := by
    obtain ⟨_, heq, -⟩ := h.field f
    obtain ⟨type, index, hf⟩ := hn.field f
    exact ⟨type, index, by rw [hf, heq]; rfl⟩
  cls c := by
    obtain ⟨_, _, heq, -⟩ := h.cls c
    obtain ⟨super, implements, laidOut, fields, methods, hc⟩ := hn.cls c
    exact ⟨super, implements, laidOut, fields, methods, by rw [hc, heq]; rfl⟩
  iface i := by
    obtain ⟨_, heq, -⟩ := h.iface i
    obtain ⟨bases, hi⟩ := hn.iface i
    exact ⟨bases, by rw [hi, heq]; rfl⟩

theorem named_right (h : t.Revised own t') (hn : s.Named σ t) : s.Named σ t' where
  space n := by rw [h.space]; exact hn.space n
  enumeration e := by rw [h.enumeration]; exact hn.enumeration e
  func f := by
    obtain ⟨sig, heq, -⟩ := h.func (σ.func f)
    obtain ⟨_, index, hf⟩ := hn.func f
    exact ⟨sig, index, by rw [heq, hf]⟩
  global g := by
    obtain ⟨type, heq, -⟩ := h.global (σ.global g)
    obtain ⟨_, hg⟩ := hn.global g
    exact ⟨type, by rw [heq, hg]⟩
  field f := by
    obtain ⟨type, heq, -⟩ := h.field (σ.field f)
    obtain ⟨_, index, hf⟩ := hn.field f
    exact ⟨type, index, by rw [heq, hf]⟩
  cls c := by
    obtain ⟨super, implements, heq, -⟩ := h.cls (σ.cls c)
    obtain ⟨_, _, laidOut, fields, methods, hc⟩ := hn.cls c
    exact ⟨super, implements, laidOut, fields, methods, by rw [heq, hc]⟩
  iface i := by
    obtain ⟨bases, heq, -⟩ := h.iface (σ.iface i)
    obtain ⟨_, hi⟩ := hn.iface i
    exact ⟨bases, by rw [heq, hi]⟩

end Revised

/-! ## Symbols of others -/

theorem notMem_image (hdisjoint : ∀ k i, own k i → ¬own' k i) {k : SymKind} {i : Nat} (hi : own k i) :
    ¬σ.image own' k (σ.index k i) := by
  rintro ⟨j, hj, heq⟩
  exact hdisjoint k i hi (σ.index_injective k heq ▸ hj)

theorem TypesAgree.left (h : s.TypesAgree σ own t) (hr : s.Revised own' s') (hdisjoint : ∀ k i, own k i → ¬own' k i) :
    s'.TypesAgree σ own t where
  func f hf := by rw [hr.sig (hdisjoint _ _ hf), h.func f hf]
  global g hg := by rw [hr.globalType (hdisjoint _ _ hg), h.global g hg]
  field f hf := by rw [hr.fieldType (hdisjoint _ _ hf), h.field f hf]

theorem TypesAgree.right (h : s.TypesAgree σ own t) (hr : t.Revised (σ.image own') t')
    (hdisjoint : ∀ k i, own k i → ¬own' k i) : s.TypesAgree σ own t' where
  func f hf := by rw [hr.sig (notMem_image hdisjoint hf), h.func f hf]
  global g hg := by rw [hr.globalType (notMem_image hdisjoint hg), h.global g hg]
  field f hf := by rw [hr.fieldType (notMem_image hdisjoint hf), h.field f hf]

theorem BasesAgree.left (h : s.BasesAgree σ own t) (hr : s.Revised own' s') (hdisjoint : ∀ k i, own k i → ¬own' k i) :
    s'.BasesAgree σ own t where
  super c hc := by rw [hr.super (hdisjoint _ _ hc), h.super c hc]
  implements c hc := by rw [hr.implements (hdisjoint _ _ hc), h.implements c hc]
  bases i hi := by rw [hr.bases (hdisjoint _ _ hi), h.bases i hi]

theorem BasesAgree.right (h : s.BasesAgree σ own t) (hr : t.Revised (σ.image own') t')
    (hdisjoint : ∀ k i, own k i → ¬own' k i) : s.BasesAgree σ own t' where
  super c hc := by rw [hr.super (notMem_image hdisjoint hc), h.super c hc]
  implements c hc := by rw [hr.implements (notMem_image hdisjoint hc), h.implements c hc]
  bases i hi := by rw [hr.bases (notMem_image hdisjoint hi), h.bases i hi]

theorem TypesAgree.mono (h : s.TypesAgree σ own t) (hown : ∀ k i, own' k i → own k i) : s.TypesAgree σ own' t where
  func f hf := h.func f (hown _ _ hf)
  global g hg := h.global g (hown _ _ hg)
  field f hf := h.field f (hown _ _ hf)

theorem BasesAgree.mono (h : s.BasesAgree σ own t) (hown : ∀ k i, own' k i → own k i) : s.BasesAgree σ own' t where
  super c hc := h.super c (hown _ _ hc)
  implements c hc := h.implements c (hown _ _ hc)
  bases i hi := h.bases i (hown _ _ hi)

theorem BasesAgree.union {own'' : SymKind → Nat → Prop} (h : s.BasesAgree σ own t) (h' : s.BasesAgree σ own' t)
    (hcover : ∀ k i, own'' k i → own k i ∨ own' k i) : s.BasesAgree σ own'' t where
  super c hc := (hcover _ _ hc).elim (h.super c) (h'.super c)
  implements c hc := (hcover _ _ hc).elim (h.implements c) (h'.implements c)
  bases i hi := (hcover _ _ hi).elim (h.bases i) (h'.bases i)

theorem typesAgree_of_cover (h : ∀ k i, ∃ own : SymKind → Nat → Prop, own k i ∧ s.TypesAgree σ own s') :
    s.TypesAgree σ (fun _ _ => True) s' where
  func f _ := let ⟨_, hown, h⟩ := h .func f.index; h.func f hown
  global g _ := let ⟨_, hown, h⟩ := h .global g.index; h.global g hown
  field f _ := let ⟨_, hown, h⟩ := h .field f.index; h.field f hown

theorem basesAgree_of_cover (h : ∀ k i, ∃ own : SymKind → Nat → Prop, own k i ∧ s.BasesAgree σ own s') :
    s.BasesAgree σ (fun _ _ => True) s' where
  super c _ := let ⟨_, hown, h⟩ := h .cls c.index; h.super c hown
  implements c _ := let ⟨_, hown, h⟩ := h .cls c.index; h.implements c hown
  bases i _ := let ⟨_, hown, h⟩ := h .iface i.index; h.bases i hown

/-! ## Changes -/

theorem global_updateGlobal {g h : GlobalId} {change : Global → Global} :
    (updateGlobal g change s).2.global h =
      if g = h ∧ h.index < s.globals.size then change (s.global h) else s.global h := by
  have heq : (g = h ∧ h.index < s.globals.size) ↔ (g.index = h.index ∧ h.index < s.globals.size) := by
    cases g; cases h; simp
  simp only [heq]
  exact getD_modify

theorem revised_updateFunc {f : FuncId} (hf : own .func f.index) {sig : Option Signature} :
    s.Revised own (updateFunc f ({ · with sig }) s).2 := by
  let h : s.Revised own s := .refl s
  refine { h with count := fun k => count_updateFunc k, func := fun g => ?_ }
  rw [func_updateFunc]
  split
  · next heq => exact ⟨sig, rfl, .inl (heq.1 ▸ hf)⟩
  · exact ⟨_, rfl, .inr rfl⟩

theorem revised_updateGlobal {g : GlobalId} (hg : own .global g.index) {type : Option Ty} :
    s.Revised own (updateGlobal g ({ · with type }) s).2 := by
  let h : s.Revised own s := .refl s
  refine { h with count := fun k => count_updateGlobal k, global := fun x => ?_ }
  rw [global_updateGlobal]
  split
  · next heq => exact ⟨type, rfl, .inl (heq.1 ▸ hg)⟩
  · exact ⟨_, rfl, .inr rfl⟩

theorem revised_updateField {f : FieldId} (hf : own .field f.index) {type : Option Ty} :
    s.Revised own (updateField f ({ · with type }) s).2 := by
  let h : s.Revised own s := .refl s
  refine { h with count := fun k => count_updateField k, field := fun x => ?_ }
  rw [field_updateField]
  split
  · next heq => exact ⟨type, rfl, .inl (heq.1 ▸ hf)⟩
  · exact ⟨_, rfl, .inr rfl⟩

theorem revised_updateClass {c : ClassId} (hc : own .cls c.index) {f : Class → Class}
    (hf : ∀ x, ∃ super implements, f x = { x with super, implements }) : s.Revised own (updateClass c f s).2 := by
  let h : s.Revised own s := .refl s
  refine { h with count := fun k => count_updateClass k, cls := fun x => ?_ }
  rw [cls_updateClass]
  split
  · next heq =>
    obtain ⟨super, implements, hx⟩ := hf (s.cls x)
    exact ⟨super, implements, hx, .inl (heq.1 ▸ hc)⟩
  · exact ⟨_, _, rfl, .inr ⟨rfl, rfl⟩⟩

theorem revised_updateInterface {i : InterfaceId} (hi : own .iface i.index) {f : Interface → Interface}
    (hf : ∀ x, ∃ bases, f x = { x with bases }) : s.Revised own (updateInterface i f s).2 := by
  let h : s.Revised own s := .refl s
  refine { h with count := fun k => count_updateInterface k, iface := fun x => ?_ }
  rw [iface_updateInterface]
  split
  · next heq =>
    obtain ⟨bases, hx⟩ := hf (s.iface x)
    exact ⟨bases, hx, .inl (heq.1 ▸ hi)⟩
  · exact ⟨_, rfl, .inr rfl⟩

end Store

end Weft

/-!
## Types of renamed symbols

A unit finds the types of its symbols under a renaming as it finds them without, and changes the types of its own symbols
only.
-/

namespace Weft

/-- The members of owned classes are owned. -/
def Store.Inside (own : SymKind → Nat → Prop) (s : Store) : Prop :=
  ∀ c, own .cls c.index → ∀ x ∈ (s.cls c).members.symbols, x.In own

/-- Where the members of owned classes are owned, the second store differs from the first in the types and bases of owned
symbols only. -/
def Store.RevisedInside (own : SymKind → Nat → Prop) (s s' : Store) : Prop := s.Inside own → s.Revised own s'

namespace Store

variable {σ : Renaming} {own : SymKind → Nat → Prop} {s s' : Store}

theorem Revised.inside {own' : SymKind → Nat → Prop} (h : s.Revised own' s') (hs : s.Inside own) : s'.Inside own := by
  intro c hc x hx
  rw [h.members] at hx
  exact hs c hc x hx

instance : Std.Refl (RevisedInside own) := ⟨fun s _ => .refl s⟩

instance : IsTrans Store (RevisedInside own) := ⟨fun _ _ _ h h' hs => (h hs).trans (h' ((h hs).inside hs))⟩

theorem Revised.moves {m : Symbols Unit} (h : ∀ s : Store, s.Revised own (m s).2) : Analysis.MovesSymbols (RevisedInside own) m :=
  fun s _ => h s

end Store

namespace Analysis

variable {σ : Renaming} {own : SymKind → Nat → Prop} {s s' : Store}

/-! ## What a unit changes -/

section Frames

theorem moves_typeOwnMethod {m : Method} (hm : own .func m.symbol.index) : Moves (Store.RevisedInside own) (typeMethod m) :=
  moves_typeMethod fun _ => Store.Revised.moves fun _ => Store.revised_updateFunc hm

/-- What a field is typed with is for the field that is found under its name. -/
def typeFound (f : Tree.FieldDecl) : Option Sym → Analysis PUnit
  | some (.field id) => do
    let t := (← resolveType false f.type).getD .any
    symbols (Store.updateField id ({ · with type := some t }))
  | _ => return

theorem moves_typeOwnField {c : ClassId} (hc : own .cls c.index) {f : Tree.FieldDecl} :
    Moves (Store.RevisedInside own) (typeField c f) := by
  intro pl st hin
  -- The field is one of the members that the class has at this moment.
  have hfound : ∀ x, (st.store.cls c).members.get? f.name = x → (∀ a ∈ x, a.In own) →
      Moves (Store.RevisedInside own) (typeFound f x) := by
    intro x _ hx
    unfold typeFound
    split
    · next id =>
      exact (moves_resolveType _).bind fun _ =>
        moves_symbols (Store.Revised.moves fun _ => Store.revised_updateField (hx _ rfl))
    · exact moves_pure
  refine hfound _ rfl (fun a ha => hin c hc a ?_) pl st hin
  exact List.mem_map.mpr ⟨_, Table.get?_mem ha, rfl⟩

/-- The types of a declaration are those of its symbols. -/
theorem movesUnit_typeOwnItem {i : Item} (hi : i.In own) : MovesUnit (Store.RevisedInside own) (typeItem i) := by
  unfold typeItem
  cases i with
  | func sc m => exact movesUnit_attempt (moves_typeOwnMethod hi)
  | cls sc d c ms =>
    refine movesUnit_attempt ?_
    exact (moves_forM fun f _ => moves_typeOwnField hi.1).bind fun _ => moves_forM fun m hm => moves_typeOwnMethod (hi.2 m hm)
  | iface sc d i ms => exact movesUnit_attempt (moves_forM fun m hm => moves_typeOwnMethod (hi.2 m hm))
  | global sc d type g init =>
    refine movesUnit_attempt ?_
    exact (moves_resolveType _).bind fun _ => moves_symbols (Store.Revised.moves fun _ => Store.revised_updateGlobal hi)

/-- A fresh unit finds the types of its own symbols only. -/
theorem revised_types {p : Project} {u : FileUnit} (hfresh : u.IsFresh) (hu : ∀ i ∈ u.items, i.In own) (hs : s.Inside own) :
    s.Revised own (runPhase p .types u s).2 := by
  obtain ⟨tree, items, imports, hsrc⟩ := hfresh
  rw [FileUnit.items_eq hsrc] at hu
  have hrun : runPhase p .types u s = (items.forM typeItem : OnUnit PUnit) u s := by
    obtain ⟨file, module, diags, broken, source⟩ := u
    obtain rfl : source = _ := hsrc
    rfl
  rw [hrun]
  exact (movesUnit_forM (fun i hi => movesUnit_typeOwnItem (hu i hi)) u s ⟨tree, items, imports, hsrc⟩).1 hs

end Frames

/-! ## In step -/

/-- Stores in which a unit has found types for its symbols so far, under a renaming and without. -/
structure Typing (σ : Renaming) (own : SymKind → Nat → Prop) (s s' : Store) : Prop where
  named : s.Named σ s'
  types : s.TypesAgree σ own s'
  room : ∀ k i, own k i → i < s.count k ∧ σ.index k i < s'.count k
  inside : s.Inside own

section Steps

theorem Typing.updateFunc (h : Typing σ own s s') {f : FuncId} (hf : own .func f.index) (sig : Signature) :
    Typing σ own (Store.updateFunc f ({ · with sig := some sig }) s).2
      (Store.updateFunc (σ.func f) ({ · with sig := some (sig.rename σ) }) s').2 := by
  have hleft : s.Revised own (Store.updateFunc f ({ · with sig := some sig }) s).2 := Store.revised_updateFunc hf
  have hright : s'.Revised (fun _ _ => True) (Store.updateFunc (σ.func f) ({ · with sig := some (sig.rename σ) }) s').2 :=
    Store.revised_updateFunc trivial
  refine ⟨hright.named_right (hleft.named_left h.named), ⟨fun g hg => ?_, h.types.global, h.types.field⟩, fun k i hi => ?_,
    hleft.inside h.inside⟩
  · rw [Store.func_updateFunc, Store.func_updateFunc]
    by_cases heq : f = g
    · subst heq
      rw [if_pos ⟨rfl, (h.room .func f.index hf).2⟩, if_pos ⟨rfl, (h.room .func f.index hf).1⟩]
      rfl
    · rw [if_neg fun h => heq (σ.func.injective h.1), if_neg fun h => heq h.1]
      exact h.types.func g hg
  · rw [hleft.count, hright.count]
    exact h.room k i hi

theorem Typing.updateGlobal (h : Typing σ own s s') {g : GlobalId} (hg : own .global g.index) (type : Ty) :
    Typing σ own (Store.updateGlobal g ({ · with type := some type }) s).2
      (Store.updateGlobal (σ.global g) ({ · with type := some (type.rename σ) }) s').2 := by
  have hleft : s.Revised own (Store.updateGlobal g ({ · with type := some type }) s).2 := Store.revised_updateGlobal hg
  have hright : s'.Revised (fun _ _ => True) (Store.updateGlobal (σ.global g) ({ · with type := some (type.rename σ) }) s').2 :=
    Store.revised_updateGlobal trivial
  refine ⟨hright.named_right (hleft.named_left h.named), ⟨h.types.func, fun x hx => ?_, h.types.field⟩, fun k i hi => ?_,
    hleft.inside h.inside⟩
  · rw [Store.global_updateGlobal, Store.global_updateGlobal]
    by_cases heq : g = x
    · subst heq
      rw [if_pos ⟨rfl, (h.room .global g.index hg).2⟩, if_pos ⟨rfl, (h.room .global g.index hg).1⟩]
      rfl
    · rw [if_neg fun h => heq (σ.global.injective h.1), if_neg fun h => heq h.1]
      exact h.types.global x hx
  · rw [hleft.count, hright.count]
    exact h.room k i hi

theorem Typing.updateField (h : Typing σ own s s') {f : FieldId} (hf : own .field f.index) (type : Ty) :
    Typing σ own (Store.updateField f ({ · with type := some type }) s).2
      (Store.updateField (σ.field f) ({ · with type := some (type.rename σ) }) s').2 := by
  have hleft : s.Revised own (Store.updateField f ({ · with type := some type }) s).2 := Store.revised_updateField hf
  have hright : s'.Revised (fun _ _ => True) (Store.updateField (σ.field f) ({ · with type := some (type.rename σ) }) s').2 :=
    Store.revised_updateField trivial
  refine ⟨hright.named_right (hleft.named_left h.named), ⟨h.types.func, h.types.global, fun x hx => ?_⟩, fun k i hi => ?_,
    hleft.inside h.inside⟩
  · rw [Store.field_updateField, Store.field_updateField]
    by_cases heq : f = x
    · subst heq
      rw [if_pos ⟨rfl, (h.room .field f.index hf).2⟩, if_pos ⟨rfl, (h.room .field f.index hf).1⟩]
      rfl
    · rw [if_neg fun h => heq (σ.field.injective h.1), if_neg fun h => heq h.1]
      exact h.types.field x hx
  · rw [hleft.count, hright.count]
    exact h.room k i hi

theorem relates_typeMethod {m : Method} (hm : own .func m.symbol.index) :
    Relates σ (Typing σ own) id (typeMethod m) (typeMethod (m.rename σ)) := by
  refine Relates.bind (f := Signature.rename σ)
    (relates_of_carries fun s s' h => carries_resolveSignature h.named m.decl.coro m.decl.returns m.decl.params) fun sig => ?_
  exact relates_symbols fun s s' h => ⟨rfl, h.updateFunc hm sig⟩

theorem relates_typeField {c : ClassId} (hc : own .cls c.index) (d : Tree.FieldDecl) :
    Relates σ (Typing σ own) id (typeField c d) (typeField (σ.cls c) d) := by
  refine relates_store_bind fun s s' h => ?_
  rw [h.named.cls_members, Table.get?_rename]
  cases hget : (s.cls c).members.get? d.name with
  | none => exact relates_pure rfl
  | some x =>
    have hx : x.In own := h.inside c hc x (List.mem_map.mpr ⟨_, Table.get?_mem hget, rfl⟩)
    cases x with
    | field f =>
      refine Relates.bind (f := Option.map (Ty.rename σ)) (relates_of_carries fun s s' h =>
        carries_resolveType h.named false d.type)
        fun t => ?_
      rw [getD_any_rename]
      exact relates_symbols fun s s' h => ⟨rfl, h.updateField hx _⟩
    | _ => exact relates_pure rfl

theorem relatesUnit_typeItem {i : Item} (hi : i.In own) :
    RelatesUnit σ (Typing σ own) id (typeItem i) (typeItem (i.rename σ)) := by
  cases i with
  | func sc m => exact (relates_typeMethod hi).attempt rfl
  | cls sc d c ms =>
    rw [Item.rename, typeItem, typeItem]
    refine Relates.attempt (f := id) ?_ rfl
    refine Relates.bind (f := id) ?_ fun _ => relates_forM ms fun m hm => relates_typeMethod (hi.2 m hm)
    have h := relates_forM (h := id) (l := typeField (σ.cls c)) d.fields fun f _ => relates_typeField hi.1 f
    rwa [List.map_id] at h
  | iface sc d i ms => exact (relates_forM ms fun m hm => relates_typeMethod (hi.2 m hm)).attempt rfl
  | global sc d type g init =>
    rw [Item.rename, typeItem, typeItem]
    refine Relates.attempt (f := id) ?_ rfl
    refine Relates.bind (f := Option.map (Ty.rename σ)) (relates_of_carries fun s s' h => carries_resolveType h.named false type)
      fun t => ?_
    rw [getD_any_rename]
    exact relates_symbols fun s s' h => ⟨rfl, h.updateGlobal hi _⟩

/-- A unit finds its types under a renaming as it does without. -/
theorem types_rename {p p' : Project} {u : FileUnit} (hfresh : u.IsFresh) (hu : ∀ i ∈ u.items, i.In own)
    (h : Typing σ own s s') :
    (runPhase p' .types (u.rename σ) s').1.2 = (runPhase p .types u s).1.2.rename σ ∧
      Typing σ own (runPhase p .types u s).2 (runPhase p' .types (u.rename σ) s').2 := by
  obtain ⟨tree, items, imports, hsrc⟩ := hfresh
  rw [FileUnit.items_eq hsrc] at hu
  have hrun : runPhase p .types u s = (items.forM typeItem : OnUnit PUnit) u s := by
    obtain ⟨file, module, diags, broken, source⟩ := u
    obtain rfl : source = _ := hsrc
    rfl
  have hrun' : runPhase p' .types (u.rename σ) s' =
      ((items.map (Item.rename σ)).forM typeItem : OnUnit PUnit) (u.rename σ) s' := by
    obtain ⟨file, module, diags, broken, source⟩ := u
    obtain rfl : source = _ := hsrc
    rfl
  obtain ⟨_, u₁, s₁, s₁', h₁, h₂, hR⟩ := relatesUnit_forM items (fun i hi => relatesUnit_typeItem (σ := σ) (hu i hi)) u s s' h
  rw [hrun, hrun', h₁, h₂]
  exact ⟨rfl, hR⟩

end Steps

end Analysis

end Weft
