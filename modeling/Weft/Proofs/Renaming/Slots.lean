import Weft.Proofs.Analysis.ClassItems
import Weft.Proofs.Renaming.Compiled

/-!
# Slots of renamed members

The layout of a class is made of its members and those of its superclasses, so that it is the same under other identities.
-/

namespace Weft.Store

/-! ## Members under other identities -/

section Renamed

variable {σ : Renaming} {s s' t t' : Store} {among among' : ClassId → Prop} {c : ClassId} {n : String}

mutual

theorem ty_rename_injective : (t u : Ty) → t.rename σ = u.rename σ → t = u
  | .builtin _, u, h => by cases u <;> simp_all
  | .array t, u, h => by
    cases u with
    | array u => rw [ty_rename_injective t u (by simpa using h)]
    | _ => simp_all
  | .map k v, u, h => by
    cases u with
    | map k' v' =>
      simp only [Ty.rename_map, Ty.map.injEq] at h
      rw [ty_rename_injective k k' h.1, ty_rename_injective v v' h.2]
    | _ => simp_all
  | .tuple ts, u, h => by
    cases u with
    | tuple us =>
      simp only [Ty.rename, Ty.tuple.injEq] at h
      rw [types_rename_injective ts us h]
    | _ => simp_all
  | .func sig, u, h => by
    cases u with
    | func sig' =>
      simp only [Ty.rename_func, Ty.func.injEq] at h
      rw [signature_rename_injective sig sig' h]
    | _ => simp_all
  | .cls _, u, h => by cases u <;> simp_all
  | .iface _, u, h => by cases u <;> simp_all
  | .enumeration _, u, h => by cases u <;> simp_all

theorem signature_rename_injective : (t u : Signature) → t.rename σ = u.rename σ → t = u
  | ⟨returns, params, _, _⟩, ⟨returns', params', _, _⟩, h => by
    simp only [Signature.rename, Signature.mk.injEq] at h
    rw [ty_rename_injective returns returns' h.1, params_rename_injective params params' h.2.1, h.2.2.1, h.2.2.2]

theorem types_rename_injective : (ts us : List Ty) → renameTypes σ ts = renameTypes σ us → ts = us
  | [], us, h => by cases us <;> simp_all [renameTypes]
  | t :: ts, us, h => by
    cases us with
    | nil => simp_all [renameTypes]
    | cons u us =>
      simp only [renameTypes, List.cons.injEq] at h
      rw [ty_rename_injective t u h.1, types_rename_injective ts us h.2]

theorem params_rename_injective : (ps qs : List (Bool × Ty)) → renameParams σ ps = renameParams σ qs → ps = qs
  | [], qs, h => by cases qs <;> simp_all [renameParams]
  | (_, t) :: ps, qs, h => by
    cases qs with
    | nil => simp_all [renameParams]
    | cons q qs =>
      obtain ⟨r, u⟩ := q
      simp only [renameParams, List.cons.injEq, Prod.mk.injEq] at h
      rw [h.1.1, ty_rename_injective t u h.1.2, params_rename_injective ps qs h.2]

end

theorem sym_rename_injective : Function.Injective (Sym.rename σ) := by
  intro x y h
  cases x with
  | item i =>
    cases y with
    | item j =>
      obtain ⟨_, _, _⟩ := i
      obtain ⟨_, _, _⟩ := j
      simp_all [Sym.rename, EnumItem.rename]
    | _ => cases h
  | localVar v =>
    cases y with
    | localVar w =>
      simp only [Sym.rename, Sym.localVar.injEq, LocalVar.rename, LocalVar.mk.injEq] at h
      have htype := Option.map_injective (fun t u => ty_rename_injective t u) h.2.1
      cases v
      cases w
      simp_all
    | _ => cases h
  | _ => cases y <;> simp_all [Sym.rename]

theorem fieldsIn_rename (xs : List Sym) : fieldsIn (xs.map (Sym.rename σ)) = (fieldsIn xs).map σ.field := by
  rw [fieldsIn, fieldsIn, List.filterMap_map, List.map_filterMap]
  congr 1
  funext x
  cases x <;> rfl

theorem methodsIn_rename (xs : List Sym) : methodsIn (xs.map (Sym.rename σ)) = (methodsIn xs).map σ.func := by
  rw [methodsIn, methodsIn, List.filterMap_map, List.map_filterMap]
  congr 1
  funext x
  cases x <;> rfl

namespace Mirrors

variable (h : s.Mirrors σ t)
include h

theorem members (c : ClassId) : (t.cls (σ.cls c)).members = (s.cls c).members.rename σ := h.named.cls_members c

theorem symbols (c : ClassId) : (t.cls (σ.cls c)).members.symbols = (s.cls c).members.symbols.map (Sym.rename σ) := by
  rw [h.members, Table.symbols_rename]

/-- A counterpart is a member of the counterpart of a class only. -/
theorem func_mem {f : FuncId} {d : ClassId} (ht : t.Declared d) (hf : .func (σ.func f) ∈ (t.cls d).members.symbols) :
    ∃ c, σ.cls c = d ∧ .func f ∈ (s.cls c).members.symbols := by
  have howner := h.func_owner f
  rw [ht.funcs _ hf] at howner
  obtain ⟨o, -, ho⟩ := Option.map_eq_some_iff.mp howner.symm
  cases o with
  | cls c =>
    obtain rfl : σ.cls c = d := by simpa [Owner.rename] using ho
    rw [h.symbols] at hf
    exact ⟨c, rfl, (List.mem_map_of_injective sym_rename_injective).mp hf⟩
  | _ => cases ho

theorem field_mem {x : FieldId} {d : ClassId} (ht : t.Declared d) (hx : .field (σ.field x) ∈ (t.cls d).members.symbols) :
    ∃ c, σ.cls c = d ∧ .field x ∈ (s.cls c).members.symbols := by
  have howner := ht.fields _ hx
  obtain ⟨_, hfield⟩ := h.field x
  rw [hfield] at howner
  obtain ⟨c, -, rfl⟩ := Option.map_eq_some_iff.mp howner
  rw [h.symbols] at hx
  exact ⟨c, rfl, (List.mem_map_of_injective sym_rename_injective).mp hx⟩

theorem method? (c : ClassId) (n : String) : t.method? (σ.cls c) n = (s.method? c n).map σ.func := by
  rw [Store.method?, Store.method?, h.members, Table.get?_rename]
  cases (s.cls c).members.get? n with
  | none => rfl
  | some x => cases x <;> rfl

theorem inheritedMethod? (c : ClassId) (n : String) :
    t.inheritedMethod? (σ.cls c) n = (s.inheritedMethod? c n).map σ.func := by
  unfold Store.inheritedMethod?
  rw [h.cls_super]
  cases (s.cls c).super with
  | none => rfl
  | some b =>
    simp only [Option.map_some, bind, Option.bind_some, h.hasCycle, h.classMember?]
    split
    · rfl
    · cases s.classMember? b n with
      | none => rfl
      | some x => cases x <;> rfl

theorem derives {c b : ClassId} : t.Derives (σ.cls c) b ↔ ∃ b', s.Derives c b' ∧ σ.cls b' = b := by
  rw [Derives, h.cls_super, Option.map_eq_some_iff]
  rfl

end Mirrors

/-- The layout of a class is the same under other identities. -/
theorem Mirrors.tables (h : s.Mirrors σ t) (hs : s.Arrangement among) (ht : t.Arrangement among') (hc : among c)
    (hc' : among' (σ.cls c)) :
    (t.cls (σ.cls c)).fields = (s.cls c).fields.map σ.field ∧ (t.cls (σ.cls c)).methods = (s.cls c).methods.map σ.func := by
  induction c using h.acyclic.induction with
  | step c ih =>
    have hbase : t.baseFields (σ.cls c) = (s.baseFields c).map σ.field ∧
        t.baseMethods (σ.cls c) = (s.baseMethods c).map σ.func := by
      simp only [baseFields, baseMethods, h.cls_super]
      cases hb : (s.cls c).super with
      | none => exact ⟨rfl, rfl⟩
      | some b => exact ih b hb ((hs c hc).super b hb) ((ht _ hc').super _ (h.derives.mpr ⟨b, hb, rfl⟩))
    rw [(hs c hc).fields, (hs c hc).methods, (ht _ hc').fields, (ht _ hc').methods, hbase.1, hbase.2, h.symbols,
      fieldsIn_rename, methodsIn_rename, List.map_append, List.map_append, List.map_map, List.map_map, List.filter_map]
    refine ⟨rfl, congrArg₂ (· ++ ·) (List.map_congr_left fun f _ => ?_) (congrArg _ (List.filter_congr fun f _ => ?_))⟩
    · simp only [Function.comp_apply, h.func_name, h.method?]
      cases s.method? c (s.func f).name <;> rfl
    · simp only [Function.comp_apply, h.func_name, h.inheritedMethod?, Option.isNone_map]

/-- Members of classes that are laid out on both sides have the same slots. -/
theorem Mirrors.places (h : s.Mirrors σ t) (hs : s.WellLaid) (ht : t.WellLaid) (hmade : ∀ c, t.Made (σ.cls c) → s.Made c)
    (hfunc : ∀ f, (∀ c, .func f ∈ (s.cls c).members.symbols → ¬t.Made (σ.cls c)) → (t.func (σ.func f)).index = (s.func f).index)
    (hfield : ∀ x, (∀ c, .field x ∈ (s.cls c).members.symbols → ¬t.Made (σ.cls c)) →
      (t.field (σ.field x)).index = (s.field x).index) : s.Places σ t where
  toMirrors := h
  funcIndex f := by
    by_cases hf : ∀ c, .func f ∈ (s.cls c).members.symbols → ¬t.Made (σ.cls c)
    · exact hfunc f hf
    · push Not at hf
      obtain ⟨c, hmem, hc⟩ := hf
      have hown : s.methodMember? c (s.func f).name = some f := by
        rw [methodMember?, lineage_eq hs.sound.acyclic, List.findSome?_cons,
          (hs.sound.declared c).method?_of_mem hmem]
      obtain ⟨i, hi, hindex⟩ := hs.arrangement.getElem?_index hs.sound (hmade c hc) hown
      rw [hindex]
      refine (ht.arrangement _ hc).methodIndex i (σ.func f) ?_
      rw [(h.tables hs.arrangement ht.arrangement (hmade c hc) hc).2, List.getElem?_map, hi]
      rfl
  fieldIndex x := by
    by_cases hx : ∀ c, .field x ∈ (s.cls c).members.symbols → ¬t.Made (σ.cls c)
    · exact hfield x hx
    · push Not at hx
      obtain ⟨c, hmem, hc⟩ := hx
      have hin : x ∈ (s.cls c).fields := by
        rw [(hs.arrangement c (hmade c hc)).fields]
        exact List.mem_append_right _ (mem_fieldsIn.mpr hmem)
      obtain ⟨i, hi⟩ := List.getElem?_of_mem hin
      rw [(hs.arrangement c (hmade c hc)).fieldIndex i x hi]
      refine (ht.arrangement _ hc).fieldIndex i (σ.field x) ?_
      rw [(h.tables hs.arrangement ht.arrangement (hmade c hc) hc).1, List.getElem?_map, hi]
      rfl

/-- Where the classes that are laid out on the other side are counterparts of such classes, all members have the positions
of the first layouts, if those outside of these classes had them before the layouts on the other side. -/
theorem LaidOutAll.places {cs cs' : List ClassId} (hs : s.LaidOutAll cs s') (ht : t.LaidOutAll cs' t') (hm : s.Mirrors σ t)
    (hm' : s'.Mirrors σ t') (hsound : t.SoundClasses) (hcs : ∀ c ∈ cs', ∃ b ∈ cs, σ.cls b = c)
    (hmade : ∀ c, t.Made (σ.cls c) → s.Made c)
    (hfunc : ∀ f, (∀ c, .func f ∈ (s.cls c).members.symbols → ¬t'.Made (σ.cls c)) → (t.func (σ.func f)).index = (s'.func f).index)
    (hfield : ∀ x, (∀ c, .field x ∈ (s.cls c).members.symbols → ¬t'.Made (σ.cls c)) →
      (t.field (σ.field x)).index = (s'.field x).index) : s'.Places σ t' := by
  refine hm'.places hs.wellLaid ht.wellLaid (fun c hc => ?_) (fun f hf => ?_) fun x hx => ?_
  · rw [ht.made] at hc
    rw [hs.made]
    refine hc.imp (hmade c) ?_
    rintro ⟨d, hd, hmem⟩
    obtain ⟨b, hb, rfl⟩ := hcs d hd
    rw [hm.lineage] at hmem
    exact ⟨b, hb, (List.mem_map_of_injective σ.cls.injective).mp hmem⟩
  · simp only [hs.members] at hf
    rw [ht.func_unmade hsound, hfunc f hf]
    intro d hd
    obtain ⟨c, rfl, hc⟩ := hm.func_mem (hsound.declared d) hd
    exact hf c hc
  · simp only [hs.members] at hx
    rw [ht.field_unmade hsound, hfield x hx]
    intro d hd
    obtain ⟨c, rfl, hc⟩ := hm.field_mem (hsound.declared d) hd
    exact hx c hc

/-! ## Sound classes under other identities -/

theorem Mirrors.declared (h : s.Mirrors σ t) (hs : s.Declared c) : t.Declared (σ.cls c) where
  funcs f hf := by
    rw [h.symbols, List.mem_map] at hf
    obtain ⟨x, hx, heq⟩ := hf
    cases x with
    | func g =>
      obtain rfl : σ.func g = f := by simpa [Sym.rename] using heq
      rw [h.func_owner, hs.funcs g hx]
      rfl
    | _ => cases heq
  fields f hf := by
    rw [h.symbols, List.mem_map] at hf
    obtain ⟨x, hx, heq⟩ := hf
    cases x with
    | field g =>
      obtain rfl : σ.field g = f := by simpa [Sym.rename] using heq
      obtain ⟨_, hg⟩ := h.field g
      rw [hg]
      exact congrArg (Option.map σ.cls) (hs.fields g hx)
    | _ => cases heq
  nodup := by
    rw [h.symbols]
    exact hs.nodup.map (sym_rename_injective)
  names n f hf := by
    rw [h.members] at hf
    obtain ⟨e, he, heq⟩ := List.mem_map.mp hf
    obtain ⟨m, x⟩ := e
    cases x with
    | func g =>
      obtain ⟨rfl, hg⟩ := Prod.mk.inj heq
      obtain rfl : σ.func g = f := by simpa [Sym.rename] using hg
      rw [h.func_name, hs.names m g he]
    | _ => cases (Prod.mk.inj heq).2
  keys := by
    rw [h.members]
    have hkeys : ((s.cls c).members.rename σ).entries.map Prod.fst = (s.cls c).members.entries.map Prod.fst := by
      simp [Table.rename, Function.comp_def]
    rw [hkeys]
    exact hs.keys

/-- Classes without a layout are sound under other identities if they all have a counterpart. -/
theorem Mirrors.wellLaid (h : s.Mirrors σ t) (hs : s.SoundClasses) (hac : t.Acyclic) (hlaid : ∀ c, (t.cls c).laidOut = false)
    (honto : ∀ c : ClassId, c.index < t.classes.size → ∃ b, σ.cls b = c) : t.WellLaid where
  sound := by
    refine ⟨hac, fun c => ?_, fun c b hb n f hf => ?_⟩
    · by_cases hc : c.index < t.classes.size
      · obtain ⟨b, rfl⟩ := honto c hc
        exact h.declared (hs.declared b)
      · exact Analysis.declared_of_size_le (Nat.le_of_not_lt hc)
    · by_cases hc : c.index < t.classes.size
      · obtain ⟨c, rfl⟩ := honto c hc
        obtain ⟨b, hderives, rfl⟩ := h.derives.mp hb
        rw [h.method?, Option.map_eq_some_iff] at hf
        obtain ⟨f, hf, rfl⟩ := hf
        rw [h.classMember?]
        rcases hs.overrides c b hderives n f hf with hnone | ⟨g, hg, hsame⟩
        · exact .inl (by rw [hnone]; rfl)
        · refine .inr ⟨σ.func g, by rw [hg]; rfl, ?_⟩
          rw [h.func_sig, h.func_sig, h.sameSignature, hsame]
      · rw [Derives, cls_of_size_le (Nat.le_of_not_lt hc)] at hb
        cases hb
  arrangement c hc := arranged_of_size_le (hc.resolve_left (by simp [hlaid]))

end Renamed

end Weft.Store
