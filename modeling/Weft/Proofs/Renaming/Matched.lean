import Weft.Proofs.Renaming.Stages

/-!
# Owners and counterparts

Both outlines make as many symbols, so that every symbol of the one has its counterpart in the other. The symbols that a
module makes belong to it alone.
-/

namespace Weft.Analysis

section Owners

variable {σ : Renaming} {p p' : Project} {us vs : List FileUnit} {s : Store} {e e' d : Turn} {old : Turn → SymKind → List Nat}
  {k : SymKind} {i : Nat} {name : String}

/-! ## Counts -/

section Counts

variable (h : Outlining p p' us vs s old)
include h

theorem Outlining.below (he : e ∈ turns p .outline us s) :
    s.Below e.store ∧ (e.after p .outline).Below (runUnits p us .outline s).2 := below_turns (fun _ he => h.keep.below he) he

theorem Outlining.below' (he : e' ∈ turns p' .outline vs s) :
    s.Below e'.store ∧ (e'.after p' .outline).Below (runUnits p' vs .outline s).2 := below_turns (fun _ he => h.keep'.below he) he

theorem Outlining.exists_original {v : FileUnit} (hv : v ∈ vs) : ∃ u ∈ us, v.module.name = u.module.name := by
  obtain ⟨u, hu, hroot⟩ := List.mem_map.mp (h.paired' v hv)
  obtain ⟨w, hw, hname⟩ := h.paired u hu
  obtain rfl := List.inj_on_of_nodup_map h.roots_nodup' hw hv ((h.sameRoot u hu w hw hname).trans hroot)
  exact ⟨u, hu, hname⟩

/-- Both outlines make as many symbols. -/
theorem Outlining.count_eq (k : SymKind) : (runUnits p us .outline s).2.count k = (runUnits p' vs .outline s).2.count k := by
  obtain ⟨hle, hflat⟩ := flatMap_made (k := k) fun e he => h.keep.below (e := e) he
  obtain ⟨hle', hflat'⟩ := flatMap_made (k := k) fun e he => h.keep'.below (e := e) he
  let made (p : Project) (e : Turn) : String × Nat := (e.name, (e.made p .outline k).length)
  have hlength : ∀ e ∈ turns p .outline us s, ∀ e' ∈ turns p' .outline vs s, e'.name = e.name → made p e = made p' e' := by
    intro e he e' he' hname
    have hsize := h.size e he e' he' hname k
    have hperm := (h.perm e he k).length_eq
    simp only [made, hname, Prod.mk.injEq, true_and, Turn.made, List.length_range'] at hperm ⊢
    omega
  -- the modules have different names, so that both lists of names and numbers have the same entries
  have hnodup : ∀ {p us}, (us.map fun u : FileUnit => u.module.name).Nodup → ((turns p .outline us s).map (made p)).Nodup := by
    intro p us hnames
    rw [← turns_name p .outline us s] at hnames
    exact List.Nodup.of_map Prod.fst (by rw [List.map_map]; exact hnames)
  have hperm : ((turns p .outline us s).map (made p)).Perm ((turns p' .outline vs s).map (made p')) := by
    refine (List.perm_ext_iff_of_nodup (hnodup h.names) (hnodup h.names')).mpr fun x => ?_
    simp only [List.mem_map]
    constructor
    · rintro ⟨e, he, rfl⟩
      obtain ⟨e', he', hname⟩ := h.exists_counterpart he
      exact ⟨e', he', (hlength e he e' he' hname).symm⟩
    · rintro ⟨e', he', rfl⟩
      obtain ⟨u, hu, hname⟩ := h.exists_original (unit_mem_of_turn he')
      obtain ⟨e, he, rfl⟩ := exists_turn p .outline s hu
      exact ⟨e, he, hlength e he e' he' hname⟩
  have hsum := (hperm.map Prod.snd).sum_eq
  have hflat := congrArg List.length hflat
  have hflat' := congrArg List.length hflat'
  rw [List.length_flatMap, List.length_range'] at hflat hflat'
  simp only [List.map_map] at hsum
  have hsum' : ((turns p .outline us s).map fun e => (e.made p .outline k).length).sum =
      ((turns p' .outline vs s).map fun e => (e.made p' .outline k).length).sum := hsum
  omega

variable (hσ : Outlining.Renames p p' us vs s old σ)
include hσ

/-- Symbols that are there have counterparts that are there. -/
theorem Outlining.index_lt_iff : σ.index k i < (runUnits p' vs .outline s).2.count k ↔
    i < (runUnits p us .outline s).2.count k := by
  constructor
  · intro hi
    by_contra hout
    exact absurd (hσ.missing k i (Nat.le_of_not_lt hout)) (Nat.not_le_of_lt hi)
  · intro hi
    rcases h.cover k i with ⟨hold, -⟩ | ⟨e, he, hown⟩ | hout
    · rw [hσ.fixes k i hold]
      exact lt_of_lt_of_le hold (flatMap_made fun e he => h.keep'.below (e := e) he).1
    · obtain ⟨e', he', hname⟩ := h.exists_counterpart he
      exact lt_of_lt_of_le (h.owned hσ he he' hname hown).2 ((h.below' he').2 k)
    · omega

/-- Every symbol that is there is a counterpart. -/
theorem Outlining.onto (hi : i < (runUnits p' vs .outline s).2.count k) :
    ∃ j < (runUnits p us .outline s).2.count k, σ.index k j = i := by
  have hcount := h.count_eq k
  have hmaps : Set.MapsTo (σ.index k) (Finset.range ((runUnits p us .outline s).2.count k))
      (Finset.range ((runUnits p' vs .outline s).2.count k)) := by
    intro j hj
    simpa using (h.index_lt_iff hσ).mpr (by simpa using hj)
  obtain ⟨j, hj, rfl⟩ := Finset.surj_on_of_inj_on_of_card_le (fun j _ => σ.index k j) (fun j hj => hmaps hj)
    (fun _ _ _ _ heq => σ.index_injective k heq) (by simp [hcount]) i (by simpa using hi)
  exact ⟨j, by simpa using hj, rfl⟩

end Counts

/-! ## Owners -/

/-- What belongs to a module after an outline: the symbols that it made at its turn, and its root namespace. -/
def Owned (p : Project) (us : List FileUnit) (s : Store) (name : String) (k : SymKind) (i : Nat) : Prop :=
  ∃ e ∈ turns p .outline us s, e.name = name ∧ e.Owns p .outline k i

theorem owned_of_turn (he : e ∈ turns p .outline us s) (hi : e.Owns p .outline k i) : Owned p us s e.name k i := ⟨e, he, rfl, hi⟩

section Outlining

variable (h : Outlining p p' us vs s old)
include h

theorem Outlining.ownersApart : OwnersApart (Owned p us s) := by
  rintro _ _ hne k i ⟨d, hd, rfl, hdi⟩ ⟨e, he, rfl, hei⟩
  have hroom : ∀ e ∈ turns p .outline us s, e.unit.module.space.index < e.store.count .space := fun e he =>
    lt_of_lt_of_le (h.room _ (List.mem_map.mpr ⟨_, unit_mem_of_turn he, rfl⟩)) ((h.below he).1 .space)
  rcases hdi with hdi | ⟨rfl, hdi⟩ <;> rcases hei with hei | ⟨hk, hei⟩
  · rcases turns_apart (fun _ he => h.keep.below he) hd he hne with hbelow | hbelow
    · have := hbelow k
      omega
    · have := hbelow k
      omega
  · subst hk
    have hlt := h.room _ (List.mem_map.mpr ⟨_, unit_mem_of_turn he, rfl⟩)
    have hle := (h.below hd).1 .space
    change e.unit.module.space.index < s.count .space at hlt
    omega
  · have hlt := h.room _ (List.mem_map.mpr ⟨_, unit_mem_of_turn hd, rfl⟩)
    have hle := (h.below he).1 .space
    change d.unit.module.space.index < s.count .space at hlt
    omega
  · have hroot : d.unit.module.space = e.unit.module.space := congrArg NamespaceId.mk (hdi.symm.trans hei)
    have hunit := List.inj_on_of_nodup_map h.roots_nodup (unit_mem_of_turn hd) (unit_mem_of_turn he) hroot
    exact hne (congrArg (·.module.name) hunit)

/-- What belongs to a module is there, and so is its counterpart. -/
theorem Outlining.owned_room (hσ : Outlining.Renames p p' us vs s old σ) (hi : Owned p us s name k i) :
    i < (runUnits p us .outline s).2.count k ∧ σ.index k i < (runUnits p' vs .outline s).2.count k := by
  obtain ⟨e, he, rfl, hi⟩ := hi
  obtain ⟨e', he', hname⟩ := h.exists_counterpart he
  obtain ⟨hlt, hlt'⟩ := h.owned hσ he he' hname hi
  exact ⟨lt_of_lt_of_le hlt ((h.below he).2 k), lt_of_lt_of_le hlt' ((h.below' he').2 k)⟩

/-- Classes keep their members when other modules are outlined. -/
theorem Outlining.inside (hmembers : ∀ e ∈ turns p .outline us s, ∀ c : ClassId, e.Owns p .outline .cls c.index →
      ∀ x ∈ ((e.after p .outline).cls c).members.symbols, x.In (e.Owns p .outline)) (name : String) :
    (runUnits p us .outline s).2.Inside (Owned p us s name) := by
  rintro c ⟨e, he, rfl, hc⟩ x hx
  have hroom : c.index < (e.after p .outline).classes.size := hc.elim And.right fun hk => nomatch hk.1
  rw [(h.keep.others h.names he).2.cls hroom] at hx
  have hin := hmembers e he c hc x hx
  cases x with
  | builtin _ | item _ | localVar _ => exact hin
  | _ => exact owned_of_turn he hin

end Outlining

end Owners

end Weft.Analysis

/-!
## Counterparts between phases

Between two phases, each unit of a project that is accepted has its counterpart in another analysis, and each symbol of a
module belongs to it alone. Phase by phase, what one analysis makes of a unit the other makes of its counterpart.
-/

namespace Weft.Analysis

/-- Units of different modules, each with declarations of its own symbols. -/
structure Declaring (own : String → SymKind → Nat → Prop) (us : List FileUnit) (s : Store) : Prop where
  names : (us.map (·.module.name)).Nodup
  apart : OwnersApart own
  fresh : ∀ u ∈ us, u.IsFresh
  items : ∀ u ∈ us, ∀ i ∈ u.items, i.In (own u.module.name)
  roots : OwnRoots own us
  inside : ∀ name, s.Inside (own name)
  room : ∀ name k i, own name k i → i < s.count k

/-- Units and their counterparts in another analysis. -/
structure Matched (σ : Renaming) (own : String → SymKind → Nat → Prop) (P : FileUnit → FileUnit → Prop)
    (us vs : List FileUnit) (s t : Store) : Prop extends Declaring own us s where
  names' : (vs.map (·.module.name)).Nodup
  back : ∀ v ∈ vs, ∃ u ∈ us, v.module.name = u.module.name
  paired : Paired P us vs
  room' : ∀ name k i, own name k i → σ.index k i < t.count k

section Declaring

variable {own : String → SymKind → Nat → Prop} {p : Project} {us us' : List FileUnit} {u u' : FileUnit}
  {s s' : Store} {ph : Phase}

/-- What the phases between the outline and the bodies leave of a unit. -/
theorem goes_between (hph : ph ∈ [Phase.linkImports, .addImports, .types, .bases]) (hu : u.IsFresh)
    (h : Goes (runPhase p ph) u s () u' s') :
    u'.IsFresh ∧ u'.items = u.items ∧ u'.module.name = u.module.name ∧ u'.module.space = u.module.space := by
  obtain ⟨tree, items, imports, hsrc⟩ := id hu
  simp only [List.mem_cons, List.not_mem_nil, or_false] at hph
  rcases hph with rfl | rfl | rfl | rfl
  · obtain ⟨imports', st, -, -, rfl⟩ := goes_linkImports_fresh hsrc h
    exact ⟨⟨_, _, _, rfl⟩, (FileUnit.items_eq hsrc).symm, rfl, rfl⟩
  · obtain ⟨-, heq⟩ := goes_addImports_fresh hsrc h
    have hrelinks := (relinks_addImports (p := p) u s).1
    have hresult : (addImports p u s).1.2 = u' := congrArg (·.1.2) h.result
    have hname : u'.module.name = u.module.name := hresult ▸ named_addImports u s rfl
    rw [hresult] at hrelinks
    refine ⟨⟨tree, items, imports, ?_⟩, ?_, hname, hrelinks⟩
    · rw [heq, hsrc]
    · rw [heq, FileUnit.items, FileUnit.items]
  · obtain ⟨rfl, -⟩ := goes_resolveDeclared_fresh hsrc h
    exact ⟨hu, rfl, rfl, rfl⟩
  · obtain ⟨rfl, -⟩ := goes_bases_fresh hsrc h
    exact ⟨hu, rfl, rfl, rfl⟩

theorem sweep_between (hph : ph ∈ [Phase.linkImports, .addImports, .types, .bases]) (hus : ∀ u ∈ us, u.IsFresh)
    (h : Sweep p ph us s us' s') : ∀ u' ∈ us', ∃ u ∈ us, u'.IsFresh ∧ u'.items = u.items ∧
      u'.module.name = u.module.name ∧ u'.module.space = u.module.space := by
  induction h with
  | nil => simp
  | @cons u us u' us' s s₁ s' head tail ih =>
    refine List.forall_mem_cons.mpr ⟨⟨u, List.mem_cons_self, goes_between hph (hus u List.mem_cons_self) head⟩, fun v hv => ?_⟩
    obtain ⟨w, hw, hall⟩ := ih (fun w hw => hus w (List.mem_cons_of_mem _ hw)) v hv
    exact ⟨w, List.mem_cons_of_mem _ hw, hall⟩

/-- Units keep their declarations between the outline and the bodies, if the symbols keep theirs. -/
theorem Declaring.sweep (h : Declaring own us s) (hph : ph ∈ [Phase.linkImports, .addImports, .types, .bases])
    (hsweep : Sweep p ph us s us' s') (hcount : ∀ k, s'.count k = s.count k) (hinside : ∀ name, s'.Inside (own name)) :
    Declaring own us' s' where
  names := hsweep.names ▸ h.names
  apart := h.apart
  fresh u' hu' := by
    obtain ⟨u, hu, hfresh, -⟩ := sweep_between hph h.fresh hsweep u' hu'
    exact hfresh
  items u' hu' := by
    obtain ⟨u, hu, -, hitems, hname, -⟩ := sweep_between hph h.fresh hsweep u' hu'
    rw [hitems, hname]
    exact h.items u hu
  roots u' hu' := by
    obtain ⟨u, hu, -, -, hname, hspace⟩ := sweep_between hph h.fresh hsweep u' hu'
    rw [hname, hspace]
    exact h.roots u hu
  inside := hinside
  room name k i hi := by
    rw [hcount]
    exact h.room name k i hi

end Declaring

section Matched

variable {σ : Renaming} {own : String → SymKind → Nat → Prop} {P Q : FileUnit → FileUnit → Prop} {p : Project} (p' : Project)
  {us us' vs : List FileUnit} {s s' t : Store}

theorem Matched.original (h : Matched σ own P us vs s t) {v : FileUnit} (hv : v ∈ vs) :
    ∃ u ∈ us, v.module.name = u.module.name ∧ P u v := by
  obtain ⟨u, hu, hname⟩ := h.back v hv
  obtain ⟨w, hw, hname', hP⟩ := h.paired u hu
  obtain rfl := List.inj_on_of_nodup_map h.names' hw hv (hname'.trans hname.symm)
  exact ⟨u, hu, hname, hP⟩

/-- A phase that keeps the declarations and makes no symbols keeps the counterparts. -/
theorem Matched.next {ph : Phase} (h : Matched σ own P us vs s t) (hd : Declaring own us' s')
    (hsweep : Sweep p ph us s us' s') (hpaired : Paired Q us' (runUnits p' vs ph t).1)
    (hcount : ∀ k, (runUnits p' vs ph t).2.count k = t.count k) :
    Matched σ own Q us' (runUnits p' vs ph t).1 s' (runUnits p' vs ph t).2 where
  toDeclaring := hd
  names' := by
    rw [names_runUnits]
    exact h.names'
  back v hv := by
    have hmem : v.module.name ∈ us'.map (·.module.name) := by
      have hin := List.mem_map_of_mem (f := fun u : FileUnit => u.module.name) hv
      rw [names_runUnits] at hin
      obtain ⟨w, hw, hname⟩ := List.mem_map.mp hin
      obtain ⟨u, hu, hname'⟩ := h.back w hw
      rw [hsweep.names]
      exact List.mem_map.mpr ⟨u, hu, hname'.symm.trans hname⟩
    obtain ⟨u, hu, hname⟩ := List.mem_map.mp hmem
    exact ⟨u, hu, hname.symm⟩
  paired := hpaired
  room' name k i hi := by
    rw [hcount]
    exact h.room' name k i hi

/-! ## Imports -/

/-- Imports are resolved. -/
theorem Matched.linkImports (h : Matched σ own P us vs s t) (hsweep : Sweep p .linkImports us s us' s')
    (hstep : ∀ u ∈ us, ∀ v ∈ vs, v.module.name = u.module.name → P u v →
      Q (Analysis.linkImports p u s).1.2 (Analysis.linkImports p' v t).1.2) :
    s' = s ∧ (runUnits p' vs .linkImports t).2 = t ∧ Matched σ own Q us' (runUnits p' vs .linkImports t).1 s t := by
  have hrun := hsweep.runUnits_eq
  have hs : s' = s := by rw [← runUnits_linkImports p us s, hrun]
  have ht : (runUnits p' vs .linkImports t).2 = t := runUnits_linkImports p' vs t
  obtain rfl := hs
  have hd := h.toDeclaring.sweep (by simp) hsweep (fun _ => rfl) h.inside
  have hpaired := h.paired.linkImports hstep
  rw [hrun] at hpaired
  have hnext := h.next p' hd hsweep hpaired fun k => by rw [ht]
  rw [ht] at hnext
  exact ⟨rfl, ht, hnext⟩

/-- No symbols are made where modules are made visible. -/
theorem count_addImports (p : Project) (us : List FileUnit) (t : Store) (k : SymKind) :
    (runUnits p us .addImports t).2.count k = t.count k := by
  obtain ⟨hrest, hsize, -⟩ := relinked_runUnits p us t
  cases k with
  | space => exact hsize
  | _ => rw [hrest]; rfl

/-- Modules are made visible. -/
theorem Matched.addImports (h : Matched σ own P us vs s t) (hsweep : Sweep p .addImports us s us' s')
    (hagrees : s.Agrees σ (fun _ _ => True) t) (hroot : ∀ u v, P u v → v.module.space = σ.space u.module.space)
    (hstep : ∀ u ∈ us, ∀ v ∈ vs, v.module.name = u.module.name → ∀ s t, P u v → LinksAgree σ u.module.space s t →
      Q (Analysis.addImports p u s).1.2 (Analysis.addImports p' v t).1.2 ∧
        LinksAgree σ u.module.space (Analysis.addImports p u s).2 (Analysis.addImports p' v t).2) :
    Matched σ own Q us' (runUnits p' vs .addImports t).1 s' (runUnits p' vs .addImports t).2 ∧
      s'.Agrees σ (fun _ _ => True) (runUnits p' vs .addImports t).2 := by
  have hrun := hsweep.runUnits_eq
  have hroots' : ∀ v ∈ vs, ∃ u ∈ us, v.module.name = u.module.name ∧ v.module.space = σ.space u.module.space := by
    intro v hv
    obtain ⟨u, hu, hname, hP⟩ := h.original hv
    exact ⟨u, hu, hname, hroot u v hP⟩
  have hlinks : ∀ u ∈ us, LinksAgree σ u.module.space s t := fun u hu =>
    ⟨h.room _ _ _ (h.roots u hu), h.room' _ _ _ (h.roots u hu), hagrees.space _ trivial⟩
  have hpaired := h.paired.addImports h.names h.names' h.apart h.roots (fun v hv => by
    obtain ⟨u, hu, hname, hspace⟩ := hroots' v hv
    rw [hname, hspace]
    exact ⟨_, h.roots u hu, rfl⟩) hlinks hstep
  obtain ⟨hrest, -, -⟩ := relinked_runUnits p us s
  have hcount : ∀ k, s'.count k = s.count k := fun k => by
    rw [← count_addImports p us s k, hrun]
  have hend : ∀ u ∈ us, LinksAgree σ u.module.space (runUnits p us .addImports s).2 (runUnits p' vs .addImports t).2 := by
    intro u hu
    obtain ⟨e, he, rfl⟩ := exists_turn p .addImports s hu
    obtain ⟨v, hv, -, -, hlinks'⟩ := hpaired _ (result_mem_of_turn he)
    have hspace : (e.result p .addImports).module.space = e.unit.module.space := (relinks_addImports e.unit e.store).1
    rwa [hspace] at hlinks'
  have hagrees' := agrees_addImports hagrees hend fun v hv => by
    obtain ⟨u, hu, -, hspace⟩ := hroots' v hv
    exact ⟨u, hu, hspace⟩
  rw [hrun] at hpaired hrest hagrees'
  refine ⟨h.next p' (h.toDeclaring.sweep (by simp) hsweep hcount fun name => ?_) hsweep (fun u hu => ?_)
    (count_addImports p' vs t), hagrees'⟩
  · intro c hc x hx
    refine h.inside name c hc x ?_
    have hcls : s'.cls c = s.cls c := by
      dsimp only at hrest
      rw [hrest]
      rfl
    rwa [hcls] at hx
  · obtain ⟨v, hv, hname, hQ, -⟩ := hpaired u hu
    exact ⟨v, hv, hname, hQ⟩

/-! ## Types -/

theorem Named.inside {own : SymKind → Nat → Prop} (h : s.Named σ t) (hs : s.Inside own) : t.Inside (σ.image own) := by
  rintro c ⟨i, hi, hc⟩ x hx
  obtain rfl : σ.cls ⟨i⟩ = c := congrArg ClassId.mk hc
  rw [h.cls_members, Table.symbols_rename, List.mem_map] at hx
  obtain ⟨y, hy, rfl⟩ := hx
  have hin := hs ⟨i⟩ hi y hy
  cases y with
  | builtin _ | item _ | localVar _ => exact hin
  | _ => exact ⟨_, hin, rfl⟩

/-- Types are found. -/
theorem Matched.types (h : Matched σ own P us vs s t) (hsweep : Sweep p .types us s us' s') (hn : s.Named σ t)
    (htypes : s.TypesAgree σ (fun _ _ => True) t)
    (hright : ∀ v ∈ vs, ∀ t' : Store, (∀ name, t'.Inside (imageOwn σ own name)) →
      t'.Revised (imageOwn σ own v.module.name) (runPhase p' .types v t').2)
    (hstep : ∀ d ∈ turns p .types us s, ∀ v ∈ vs, v.module.name = d.name → ∀ t, P d.unit v → Typing σ (own d.name) d.store t →
      Q (d.result p .types) (runPhase p' .types v t).1.2 ∧ Typing σ (own d.name) (d.after p .types) (runPhase p' .types v t).2) :
    Matched σ own Q us' (runUnits p' vs .types t).1 s' (runUnits p' vs .types t).2 ∧
      s'.Named σ (runUnits p' vs .types t).2 ∧ s'.TypesAgree σ (fun _ _ => True) (runUnits p' vs .types t).2 ∧
      (∀ d ∈ turns p .types us s, d.store.Revised (own d.name) (d.after p .types)) ∧
      s.Revised (fun k i => ∃ u ∈ us, own u.module.name k i) s' ∧
      t.Revised (σ.image fun k i => ∃ u ∈ us, own u.module.name k i) (runUnits p' vs .types t).2 := by
  have hrun := hsweep.runUnits_eq
  obtain ⟨hleft, hrevised, hinside⟩ := revised_turns p .types
    (fun u hu s' hs => revised_types (h.fresh u hu) (h.items u hu) (hs u.module.name)) h.inside
  obtain ⟨hright, hrevised', -⟩ := revised_turns p' .types hright fun name => Named.inside hn (h.inside name)
  have himage : t.Revised (σ.image fun k i => ∃ u ∈ us, own u.module.name k i) (runUnits p' vs .types t).2 := by
    refine hrevised'.mono fun k i hi => ?_
    obtain ⟨v, hv, j, hj, rfl⟩ := hi
    obtain ⟨u, hu, hname⟩ := h.back v hv
    exact ⟨j, ⟨u, hu, hname ▸ hj⟩, rfl⟩
  have hpaired := h.paired.types h.names h.names' h.apart (fun u hu =>
    ⟨hn, htypes.mono fun _ _ _ => trivial, fun k i hi => ⟨h.room _ k i hi, h.room' _ k i hi⟩, h.inside _⟩) hleft hright hstep
  have hagree := typesAgree_runUnits htypes hrevised himage fun u hu => by
    obtain ⟨e, he, rfl⟩ := exists_turn p .types s hu
    obtain ⟨v, hv, -, -, htyping⟩ := hpaired _ (result_mem_of_turn he)
    rw [Turn.result_name] at htyping
    exact htyping.types
  rw [hrun] at hpaired hagree hrevised hinside
  refine ⟨h.next p' (h.toDeclaring.sweep (by simp) hsweep hrevised.count hinside) hsweep (fun u hu => ?_) himage.count,
    himage.named_right (hrevised.named_left hn), hagree, hleft, hrevised, himage⟩
  obtain ⟨v, hv, hname, hQ, -⟩ := hpaired u hu
  exact ⟨v, hv, hname, hQ⟩

/-! ## Bases -/

/-- Symbols that agree on names, types and bases are the same but for layouts. -/
theorem mirrors_of_named (hn : s.Named σ t) (htypes : s.TypesAgree σ (fun _ _ => True) t)
    (hbases : s.BasesAgree σ (fun _ _ => True) t) (hac : s.Acyclic) (hcount : ∀ k, s.count k ≤ t.count k) : s.Mirrors σ t where
  classes := hcount .cls
  interfaces := hcount .iface
  acyclic := hac
  space := hn.space
  enumeration := hn.enumeration
  global g := by
    obtain ⟨type, hg⟩ := hn.global g
    have htype := htypes.global g trivial
    rw [hg] at htype ⊢
    exact congrArg (fun type => { (s.global g).rename σ with type }) htype
  iface i := by
    obtain ⟨bases, hi⟩ := hn.iface i
    have hbase := hbases.bases i trivial
    rw [hi] at hbase ⊢
    exact congrArg (fun bases => { (s.iface i).rename σ with bases }) hbase
  func f := by
    obtain ⟨sig, index, hf⟩ := hn.func f
    have hsig := htypes.func f trivial
    rw [hf] at hsig ⊢
    exact ⟨index, congrArg (fun sig => { (s.func f).rename σ with sig, index }) hsig⟩
  field f := by
    obtain ⟨type, index, hf⟩ := hn.field f
    have htype := htypes.field f trivial
    rw [hf] at htype ⊢
    exact ⟨index, congrArg (fun type => { (s.field f).rename σ with type, index }) htype⟩
  cls c := by
    obtain ⟨super, implements, laidOut, fields, methods, hc⟩ := hn.cls c
    have hsuper := hbases.super c trivial
    have himplements := hbases.implements c trivial
    rw [hc] at hsuper himplements ⊢
    obtain rfl : super = _ := hsuper
    obtain rfl : implements = _ := himplements
    exact ⟨laidOut, fields, methods, rfl⟩

theorem Item.In.heads {own : SymKind → Nat → Prop} {i : Item} (h : i.In own) {k : SymKind} {n : Nat}
    (hn : i.Heads k n) : own k n := by
  cases i with
  | cls sc d c ms =>
    obtain ⟨rfl, rfl⟩ := hn
    exact h.1
  | iface sc d i ms =>
    obtain ⟨rfl, rfl⟩ := hn
    exact h.1
  | _ => exact hn.elim

/-- The declarations of two units of one project are of different classes and interfaces. -/
theorem apart_of_units (hapart : (us.flatMap FileUnit.items).Pairwise Item.Apart) {u w : FileUnit} (hu : u ∈ us) (hw : w ∈ us)
    (hne : u ≠ w) {i j : Item} (hi : i ∈ u.items) (hj : j ∈ w.items) : i.Apart j := by
  have hsymm : Std.Symm fun a b : FileUnit => ∀ x ∈ a.items, ∀ y ∈ b.items, x.Apart y :=
    ⟨fun a b h x hx y hy k n hn hn' => h y hy x hx k n hn' hn⟩
  exact (List.pairwise_flatMap.mp hapart).2.forall hu hw hne i hi j hj

/-- Bases are linked, but for units whose bases are known already. -/
theorem Matched.bases {known : FileUnit → Prop} (h : Matched σ own P us vs s t) (hsweep : Sweep p .bases us s us' s')
    (hapart : (us.flatMap FileUnit.items).Pairwise Item.Apart) (hclean : ∀ v ∈ vs, v.Clean) (hn : s.Named σ t)
    (hw : t.Within σ s') (hac : s'.Acyclic)
    (hitems : ∀ u v, P u v → v.file = u.file ∧ (known u → v.items = []) ∧ (¬known u → v.items = u.items.map (Item.rename σ)))
    (hstart : s.BasesAgree σ (fun k n => ¬∃ u ∈ us, known u ∧ headsOf u.items k n) t)
    (hknown : s'.BasesAgree σ (fun k n => ∃ u ∈ us, known u ∧ headsOf u.items k n) t) :
    us' = us ∧ s.Revised (headsOf (us.flatMap FileUnit.items)) s' ∧ ∃ t', Sweep p' .bases vs t vs t' ∧
      s'.BasesAgree σ (fun _ _ => True) t' ∧ t.Revised (σ.image (headsOf (us.flatMap FileUnit.items))) t' := by
  classical
  have hheads : ∀ u ∈ us, ∀ i ∈ u.items, ∀ k n, i.Heads k n → own u.module.name k n :=
    fun u hu i hi k n hn => (h.items u hu i hi).heads hn
  obtain ⟨rfl, hrevised, hlinked⟩ := hsweep.linked h.fresh hapart (by
    intro i hi k n hn
    obtain ⟨u, hu, hi⟩ := List.mem_flatMap.mp hi
    exact h.room _ k n (hheads u hu i hi k n hn))
  refine ⟨rfl, hrevised, ?_⟩
  choose! orig horig hname hP using fun v (hv : v ∈ vs) => h.original hv
  -- what a unit of the second list is linked to: nothing where the bases are known
  let is (v : FileUnit) : List Item := if known (orig v) then [] else (orig v).items
  have hsub : ∀ v, ∀ i ∈ is v, i ∈ (orig v).items ∧ ¬known (orig v) := by
    intro v i hi
    by_cases hk : known (orig v)
    · simp [is, hk] at hi
    · simp only [is, hk, if_false] at hi
      exact ⟨hi, hk⟩
  have hmem : ∀ i ∈ (vs.map is).flatten, ∃ v ∈ vs, i ∈ is v := by
    intro i hi
    obtain ⟨l, hl, hi⟩ := List.mem_flatten.mp hi
    obtain ⟨v, hv, rfl⟩ := List.mem_map.mp hl
    exact ⟨v, hv, hi⟩
  have hne : ∀ v ∈ vs, ∀ w ∈ vs, v ≠ w → orig v ≠ orig w := by
    intro v hv w hw hne heq
    exact hne (List.inj_on_of_nodup_map h.names' hv hw (by rw [hname v hv, hname w hw, heq]))
  have hlists : (vs.map is).flatten.Pairwise Item.Apart := by
    refine List.pairwise_flatten.mpr ⟨fun l hl => ?_, List.pairwise_map.mpr ?_⟩
    · obtain ⟨v, hv, rfl⟩ := List.mem_map.mp hl
      have hall := (List.pairwise_flatMap.mp hapart).1 (orig v) (horig v hv)
      by_cases hk : known (orig v)
      · simp [is, hk]
      · simpa [is, hk] using hall
    · refine (List.Nodup.of_map _ h.names').imp_of_mem fun {v w} hv hw hvw i hi j hj => ?_
      exact apart_of_units hapart (horig v hv) (horig w hw) (hne v hv w hw hvw) (hsub v i hi).1 (hsub w j hj).1
  have hfresh : ∀ k n, headsOf (vs.map is).flatten k n → ¬∃ u ∈ us', known u ∧ headsOf u.items k n := by
    rintro k n ⟨i, hi, hin⟩ ⟨u, hu, hk, j, hj, hjn⟩
    obtain ⟨v, hv, hi⟩ := hmem i hi
    obtain ⟨hi, hv'⟩ := hsub v i hi
    exact apart_of_units hapart (horig v hv) hu (fun heq => hv' (heq ▸ hk)) hi hj k n hin hjn
  have hall : ∀ k n, headsOf (vs.map is).flatten k n → headsOf (us'.flatMap FileUnit.items) k n := by
    rintro k n ⟨i, hi, hin⟩
    obtain ⟨v, hv, hi⟩ := hmem i hi
    exact ⟨i, List.mem_flatMap.mpr ⟨orig v, horig v hv, (hsub v i hi).1⟩, hin⟩
  have hbases : ∃ t', Sweep p' .bases vs t vs t' ∧ s'.BasesAgree σ (headsOf (vs.map is).flatten) t' ∧
      t.Revised (σ.image (headsOf (vs.map is).flatten)) t' := sweep_bases_rename
    (List.forall₂_map_right_iff.mpr (List.forall₂_same.mpr fun v hv => by
      obtain ⟨-, hk, hnk⟩ := hitems _ _ (hP v hv)
      by_cases hkn : known (orig v)
      · simp [is, hkn, hk hkn]
      · simp [is, hkn, hnk hkn]))
    (List.forall₂_map_right_iff.mpr (List.forall₂_same.mpr fun v hv i hi => by
      rw [(hitems _ _ (hP v hv)).1]
      exact hlinked (orig v) (horig v hv) i (hsub v i hi).1))
    hac hclean hn hw hlists (hstart.mono hfresh) (by
      intro i hi k n hin
      obtain ⟨v, hv, hi⟩ := hmem i hi
      exact h.room' _ k n (hheads _ (horig v hv) i (hsub v i hi).1 k n hin))
  obtain ⟨t', hsweep', hagree, hafter⟩ := hbases
  refine ⟨t', hsweep', Store.basesAgree_of_cover fun k n => ?_, hafter.mono fun k n ⟨m, hm, heq⟩ => ⟨m, hall k m hm, heq⟩⟩
  by_cases hnew : headsOf (vs.map is).flatten k n
  · exact ⟨_, hnew, hagree⟩
  by_cases hk : ∃ u ∈ us', known u ∧ headsOf u.items k n
  · exact ⟨_, hk, hknown.right hafter fun k n hn hn' => hfresh k n hn' hn⟩
  -- all other classes and interfaces keep their bases
  refine ⟨fun k n => ¬headsOf (us'.flatMap FileUnit.items) k n, ?_, ?_⟩
  · rintro ⟨i, hi, hin⟩
    obtain ⟨u, hu, hi⟩ := List.mem_flatMap.mp hi
    by_cases hku : known u
    · exact hk ⟨u, hu, hku, i, hi, hin⟩
    · obtain ⟨v, hv, hvname, hPv⟩ := h.paired u hu
      have heq : orig v = u := List.inj_on_of_nodup_map h.names (horig v hv) hu ((hname v hv).symm.trans hvname)
      refine hnew ⟨i, List.mem_flatten.mpr ⟨is v, List.mem_map_of_mem hv, ?_⟩, hin⟩
      simp only [is, heq, hku, if_false]
      exact hi
  · have hothers : s.BasesAgree σ (fun k n => ¬headsOf (us'.flatMap FileUnit.items) k n) t :=
      hstart.mono fun k n hn ⟨u, hu, _, i, hi, hin⟩ =>
      hn ⟨i, List.mem_flatMap.mpr ⟨u, hu, hi⟩, hin⟩
    exact (hothers.left hrevised fun k n => id).right hafter fun k n hn hn' => hn (hall k n hn')

/-! ## Bodies -/

/-- Bodies are analyzed, and only layouts change. -/
theorem Matched.bodies (h : Matched σ own P us vs s t) (hsweep : Sweep p .bodies us s us' s') (hm : s.Mirrors σ t)
    (hstep : ∀ u ∈ us, ∀ v ∈ vs, v.module.name = u.module.name → ∀ s t, P u v → s.Mirrors σ t →
      Q (runPhase p .bodies u s).1.2 (runPhase p' .bodies v t).1.2 ∧
        Laying σ s t (runPhase p .bodies u s).2 (runPhase p' .bodies v t).2) :
    Paired Q us' (runUnits p' vs .bodies t).1 ∧ Laying σ s t s' (runUnits p' vs .bodies t).2 := by
  have hbodies := h.paired.bodies (fun v hv => h.original hv) h.names h.names' hm hstep
  rwa [hsweep.runUnits_eq] at hbodies

end Matched

end Weft.Analysis
