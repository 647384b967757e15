import Weft.Proofs.Analysis.Accepted
import Weft.Proofs.Bytecode.Trusted

/-!
# Bodies and their slots

Every variable of a body has one of its slots, and every captured variable a slot in the body around it. While an
expression is analyzed, bodies only capture variables; while a statement is analyzed, the innermost body may also
declare some.
-/

namespace Weft.Analysis

/-- The number of slots of the innermost body. -/
def slotsOf (bs : List Body) : Nat := (bs.head?.map Body.slots).getD 0

/-- All variables of a body have one of its slots. -/
def Body.Fits (b : Body) : Prop := ∀ vs ∈ b.blocks, ∀ e ∈ vs, e.2.InFrame b.slots

/-- Bodies inside each other whose variables have slots, captured ones in the body around as well. -/
def Frames : List Body → Prop
  | [] => True
  | b :: outer => b.Fits ∧ (∀ u ∈ b.upvals, u.src < slotsOf outer ∧ u.dst < b.slots) ∧ Frames outer

/-- A body after more variables got slots. -/
structure Body.Grows (b b' : Body) : Prop where
  sig : b'.sig = b.sig
  cls : b'.cls = b.cls
  around : b'.around = b.around
  slots : b.slots ≤ b'.slots

/-- Bodies after variables were captured. The outermost one has nothing to capture. -/
def Captures : List Body → List Body → Prop
  | [], [] => True
  | b :: outer, b' :: outer' => b.Grows b' ∧ (outer = [] → b' = b) ∧ Captures outer outer'
  | _, _ => False

/-- Bodies after variables were captured, or declared in the innermost one. -/
def Declares : List Body → List Body → Prop
  | [], [] => True
  | b :: outer, b' :: outer' => b.Grows b' ∧ Captures outer outer'
  | _, _ => False

namespace Body

variable {b b' b'' : Body}

theorem Grows.refl (b : Body) : b.Grows b := ⟨rfl, rfl, rfl, Nat.le_refl _⟩

theorem Grows.trans (h : b.Grows b') (h' : b'.Grows b'') : b.Grows b'' :=
  ⟨h'.sig.trans h.sig, h'.cls.trans h.cls, h'.around.trans h.around, Nat.le_trans h.slots h'.slots⟩

theorem Fits.find? (h : b.Fits) {name : String} {v : LocalVar} (hv : b.find? name = some v) :
    v.InFrame b.slots := by
  obtain ⟨l₁, vs, l₂, hb, hl, -⟩ := List.findSome?_eq_some_iff.mp hv
  rw [List.lookup_eq_some_iff] at hl
  obtain ⟨k₁, k₂, hvs, -⟩ := hl
  exact h vs (by simp [hb]) (name, v) (by simp [hvs])

theorem fits_empty (sig : Signature) : (empty sig).Fits := by
  intro vs hvs e he
  simp [empty] at hvs
  simp [hvs] at he

/-- A body with one more variable in the next slot. -/
theorem Fits.add (h : b.Fits) {v : LocalVar} (hv : v.slot = b.slots) : (b.add v).Fits ∧ b.Grows (b.add v) := by
  have hnew : v.InFrame (b.slots + 1) := ⟨by omega, by omega⟩
  unfold Body.add
  split
  · next hb =>
    refine ⟨?_, rfl, rfl, rfl, Nat.le_succ _⟩
    intro vs hvs e he
    obtain rfl : vs = [(v.name, v)] := by simpa using hvs
    obtain rfl : e = (v.name, v) := by simpa using he
    exact hnew
  · next ws rest hb =>
    refine ⟨?_, rfl, rfl, rfl, Nat.le_succ _⟩
    intro vs hvs e he
    rcases List.mem_cons.mp hvs with rfl | hvs
    · rcases List.mem_cons.mp he with rfl | he
      · exact hnew
      · exact (h ws (by simp [hb]) e he).mono (Nat.le_succ _)
    · exact (h vs (by simp [hb, hvs]) e he).mono (Nat.le_succ _)

@[simp]
theorem add_upvals (b : Body) (v : LocalVar) : (b.add v).upvals = b.upvals := by
  unfold Body.add
  split <;> rfl

@[simp]
theorem add_slots (b : Body) (v : LocalVar) : (b.add v).slots = b.slots + 1 := by
  unfold Body.add
  split <;> rfl

theorem mem_addOutermost {v : LocalVar} {bs : List (List (String × LocalVar))} {vs : List (String × LocalVar)}
    {e : String × LocalVar} (hvs : vs ∈ addOutermost v bs) (he : e ∈ vs) :
    e = (v.name, v) ∨ ∃ ws ∈ bs, e ∈ ws := by
  fun_induction addOutermost v bs with
  | case1 =>
    obtain rfl : vs = [(v.name, v)] := by simpa using hvs
    exact .inl (by simpa using he)
  | case2 ws =>
    obtain rfl : vs = (v.name, v) :: ws := by simpa using hvs
    rcases List.mem_cons.mp he with rfl | he
    · exact .inl rfl
    · exact .inr ⟨ws, by simp, he⟩
  | case3 ws rest hne ih =>
    rcases List.mem_cons.mp hvs with rfl | hvs
    · exact .inr ⟨vs, by simp, he⟩
    · rcases ih hvs with rfl | ⟨xs, hxs, he⟩
      · exact .inl rfl
      · exact .inr ⟨xs, by simp [hxs], he⟩

/-- A captured variable gets the next slot. -/
theorem Fits.capture (h : b.Fits) (src : LocalVar) :
    (b.capture src).2.Fits ∧ b.Grows (b.capture src).2 ∧
      (b.capture src).1.InFrame (b.capture src).2.slots := by
  have hnew : (b.capture src).1.InFrame (b.slots + 1) := ⟨by simp [Body.capture], by simp [Body.capture]⟩
  refine ⟨?_, ⟨rfl, rfl, rfl, Nat.le_succ _⟩, hnew⟩
  intro vs hvs e he
  rcases mem_addOutermost hvs he with rfl | ⟨ws, hws, he⟩
  · exact hnew
  · exact (h ws hws e he).mono (Nat.le_succ _)

end Body

/-! ## Captures -/

section Captures

variable {bs bs' bs'' : List Body}

theorem Captures.refl : (bs : List Body) → Captures bs bs
  | [] => True.intro
  | b :: outer => ⟨.refl b, fun _ => rfl, Captures.refl outer⟩

theorem Captures.trans : {bs bs' bs'' : List Body} → Captures bs bs' → Captures bs' bs'' → Captures bs bs''
  | [], [], [], _, _ => True.intro
  | b :: outer, b' :: outer', b'' :: outer'', ⟨hg, hl, ho⟩, ⟨hg', hl', ho'⟩ => by
    refine ⟨hg.trans hg', fun h => ?_, ho.trans ho'⟩
    subst h
    cases outer' with
    | nil => rw [hl' rfl, hl rfl]
    | cons => exact ho.elim

theorem Captures.declares (h : Captures bs bs') : Declares bs bs' := by
  cases bs <;> cases bs'
  · exact True.intro
  · exact h.elim
  · exact h.elim
  · exact ⟨h.1, h.2.2⟩

theorem Declares.trans (h : Declares bs bs') (h' : Declares bs' bs'') : Declares bs bs'' := by
  cases bs <;> cases bs' <;> cases bs'' <;> first | exact h.elim | exact h'.elim | skip
  · exact True.intro
  · exact ⟨h.1.trans h'.1, h.2.trans h'.2⟩

theorem Declares.slots (h : Declares bs bs') : slotsOf bs ≤ slotsOf bs' := by
  cases bs <;> cases bs' <;> first | exact h.elim | skip
  · exact Nat.le_refl _
  · exact h.1.slots

theorem Captures.slots (h : Captures bs bs') : slotsOf bs ≤ slotsOf bs' := h.declares.slots

/-- A variable that is found has a slot in the innermost body, which captures it if it is not its own. -/
theorem Frames.findVar {name : String} : {bs bs' : List Body} → {v : LocalVar} → Frames bs →
    Analysis.findVar name bs = some (v, bs') → Captures bs bs' ∧ Frames bs' ∧ v.InFrame (slotsOf bs')
  | [], _, _, _, h => by simp [Analysis.findVar] at h
  | b :: outer, bs', v, hf, h => by
    rw [Analysis.findVar] at h
    split at h
    · next x hx =>
      obtain ⟨rfl, rfl⟩ := Prod.mk.inj (Option.some.inj h)
      exact ⟨.refl _, hf, hf.1.find? hx⟩
    · split at h
      · cases h
      · next src outer' hfound =>
        obtain ⟨hc, hfr, hsrc⟩ := Frames.findVar hf.2.2 hfound
        obtain ⟨hfits, hgrows, hv⟩ := hf.1.capture src
        obtain ⟨rfl, rfl⟩ := Prod.mk.inj (Option.some.inj h)
        refine ⟨⟨hgrows, fun ho => ?_, hc⟩, ⟨hfits, ?_, hfr⟩, hv⟩
        · subst ho
          simp [Analysis.findVar] at hfound
        · intro u hu
          rcases List.mem_append.mp hu with hu | hu
          · have := hf.2.1 u hu
            exact ⟨Nat.lt_of_lt_of_le this.1 hc.slots, Nat.lt_succ_of_lt this.2⟩
          · obtain rfl := List.mem_singleton.mp hu
            have := hsrc
            refine ⟨?_, Nat.lt_succ_self _⟩
            have h1 := this.1
            have h2 := this.2
            simp only
            omega

end Captures

/-! ## States -/

/-- A state inside a body, where all variables have slots. -/
structure State.Framed (st : State) : Prop where
  frames : Frames st.bodies
  inside : st.bodies ≠ []

/-- A state after an expression was analyzed. -/
structure State.Captured (st st' : State) : Prop where
  store : st'.store = st.store
  bodies : Captures st.bodies st'.bodies
  framed : st'.Framed

/-- A state after a statement was analyzed. -/
structure State.Declared (st st' : State) : Prop where
  store : st'.store = st.store
  bodies : Declares st.bodies st'.bodies
  framed : st'.Framed

/-- What holds for as many slots as the innermost body has or will have. -/
def State.Covers (st : State) (P : Nat → Prop) : Prop := ∀ n, slotsOf st.bodies ≤ n → P n

/-- Whether a loop is around the current statement. -/
def State.inLoop (st : State) : Bool := (st.bodies.head?.map fun b => b.around.contains .loop).getD false

theorem Captures.ne_nil {bs bs' : List Body} (h : Captures bs bs') (hne : bs ≠ []) : bs' ≠ [] := by
  rintro rfl
  cases bs with
  | nil => exact hne rfl
  | cons => exact h.elim

namespace State

variable {st st' st'' : State} {P Q : Nat → Prop}

theorem Captured.refl (h : st.Framed) : st.Captured st := ⟨rfl, .refl _, h⟩

theorem Captured.trans (h : st.Captured st') (h' : st'.Captured st'') : st.Captured st'' :=
  ⟨h'.store.trans h.store, h.bodies.trans h'.bodies, h'.framed⟩

theorem Captured.declared (h : st.Captured st') : st.Declared st' := ⟨h.store, h.bodies.declares, h.framed⟩

theorem Declared.refl (h : st.Framed) : st.Declared st := (Captured.refl h).declared

theorem Declared.trans (h : st.Declared st') (h' : st'.Declared st'') : st.Declared st'' :=
  ⟨h'.store.trans h.store, h.bodies.trans h'.bodies, h'.framed⟩

theorem Declared.inLoop (h : st.Declared st') : st'.inLoop = st.inLoop := by
  have hb := h.bodies
  cases hst : st.bodies <;> cases hst' : st'.bodies <;> rw [hst, hst'] at hb <;>
    simp only [State.inLoop, hst, hst', List.head?_nil, List.head?_cons, Option.map_none, Option.map_some]
  · exact hb.elim
  · exact hb.elim
  · rw [hb.1.around]

theorem Covers.declared (h : st.Covers P) (hs : st.Declared st') : st'.Covers P :=
  fun n hn => h n (Nat.le_trans hs.bodies.slots hn)

theorem Covers.captured (h : st.Covers P) (hs : st.Captured st') : st'.Covers P := h.declared hs.declared

theorem Covers.of (h : ∀ n, P n) : st.Covers P := fun n _ => h n

theorem Covers.imp (h : st.Covers P) (hpq : ∀ n, P n → Q n) : st.Covers Q := fun n hn => hpq n (h n hn)

theorem Covers.and (h : st.Covers P) (h' : st.Covers Q) : st.Covers fun n => P n ∧ Q n :=
  fun n hn => ⟨h n hn, h' n hn⟩

end State

/-! ## Changes of the innermost body -/

/-- A change of a body that keeps its slots and what it captures. -/
structure Body.Keeps (f : Body → Body) : Prop where
  slots : ∀ b, (f b).slots = b.slots
  upvals : ∀ b, (f b).upvals = b.upvals
  fits : ∀ b, b.Fits → (f b).Fits

section Updates

variable {st st' : State} {f g : Body → Body}

theorem slotsOf_update (hf : Body.Keeps f) : slotsOf (st.update f).bodies = slotsOf st.bodies := by
  rcases hb : st.bodies with _ | ⟨b, outer⟩ <;> simp [State.update, slotsOf, hb, hf.slots]

theorem inLoop_update (hf : ∀ b, (f b).around = b.around) : (st.update f).inLoop = st.inLoop := by
  rcases hb : st.bodies with _ | ⟨b, outer⟩ <;> simp [State.update, State.inLoop, hb, hf]

theorem State.Framed.update (h : st.Framed) (hf : Body.Keeps f) : (st.update f).Framed := by
  obtain ⟨hframes, hne⟩ := h
  rcases hb : st.bodies with _ | ⟨b, outer⟩
  · exact absurd hb hne
  · rw [hb] at hframes
    refine ⟨?_, by simp [State.update, hb]⟩
    simp only [State.update, hb, List.modifyHead_cons, Frames, hf.slots, hf.upvals]
    exact ⟨hf.fits b hframes.1, hframes.2⟩

/-- What a statement does between a change of the innermost body and its undoing, it does without them. -/
theorem State.Declared.between (hg : Body.Keeps g) (hfg : ∀ b b', (f b).Grows b' → b.Grows (g b'))
    (h : (st.update f).Declared st') : st.Declared (st'.update g) := by
  refine ⟨h.store, ?_, h.framed.update hg⟩
  have hb := h.bodies
  cases hst : st.bodies <;> cases hst' : st'.bodies <;>
    simp only [State.update, hst, hst', List.modifyHead_nil, List.modifyHead_cons] at hb ⊢
  · exact True.intro
  · exact hb.elim
  · exact hb.elim
  · exact ⟨hfg _ _ hb.1, hb.2⟩

/-- What a statement does after a change of the innermost body, it does without it. -/
theorem State.Declared.after (hf : ∀ b b', (f b).Grows b' → b.Grows b') (h : (st.update f).Declared st') :
    st.Declared st' := by
  have hid : st'.update id = st' := by simp [State.update]
  rw [← hid]
  exact h.between ⟨fun _ => rfl, fun _ => rfl, fun _ h => h⟩ hf

theorem State.Covers.update {P : Nat → Prop} (hf : Body.Keeps f) (h : st.Covers P) : (st.update f).Covers P := by
  intro n hn
  rw [slotsOf_update hf] at hn
  exact h n hn

end Updates

theorem keeps_pushBlock : Body.Keeps fun b => { b with blocks := [] :: b.blocks } := by
  refine ⟨fun _ => rfl, fun _ => rfl, ?_⟩
  intro b hb vs hvs e he
  rcases List.mem_cons.mp hvs with rfl | hvs
  · cases he
  · exact hb vs hvs e he

theorem keeps_popBlock : Body.Keeps fun b => { b with blocks := b.blocks.tail } :=
  ⟨fun _ => rfl, fun _ => rfl, fun _ hb vs hvs => hb vs (List.mem_of_mem_tail hvs)⟩

theorem keeps_around (f : List Enclosing → List Enclosing) : Body.Keeps fun b => { b with around := f b.around } :=
  ⟨fun _ => rfl, fun _ => rfl, fun _ hb => hb⟩

theorem keeps_hasYield : Body.Keeps fun b => { b with hasYield := true } :=
  ⟨fun _ => rfl, fun _ => rfl, fun _ hb => hb⟩

/-! ## Steps -/

section Steps

variable {pl : Place} {st st' : State}

/-- A variable that an expression names. -/
theorem captured_localVar {name : String} {v : Option LocalVar} (hf : st.Framed)
    (h : Accepts (localVar name) pl st v st') :
    st.Captured st' ∧ ∀ x, v = some x → st'.Covers x.InFrame := by
  rcases accepts_localVar.mp h with ⟨-, rfl, rfl⟩ | ⟨x, bodies, hx, rfl, rfl⟩
  · exact ⟨.refl hf, by simp⟩
  · obtain ⟨hc, hfr, hv⟩ := hf.frames.findVar hx
    refine ⟨⟨rfl, hc, hfr, hc.ne_nil hf.inside⟩, ?_⟩
    intro y hy n hn
    obtain rfl := Option.some.inj hy
    exact hv.mono hn

/-- A variable that is declared gets the next slot. -/
theorem declared_declare {name : String} {t : Ty} {ref : Bool} {v : LocalVar} (hf : st.Framed)
    (h : Accepts (declare name t ref) pl st v st') :
    st.Declared st' ∧ st'.Covers v.InFrame ∧ v.type = some t ∧ slotsOf st'.bodies = slotsOf st.bodies + 1 := by
  obtain ⟨rfl, rfl⟩ := accepts_declare.mp h
  obtain ⟨hframes, hne⟩ := hf
  cases hb : st.bodies with
  | nil => exact absurd hb hne
  | cons b outer =>
    rw [hb] at hframes
    let v : LocalVar := ⟨name, some t, b.slots, ref⟩
    obtain ⟨hfits, hgrows⟩ : (b.add v).Fits ∧ b.Grows (b.add v) := hframes.1.add rfl
    simp only [State.update, hb, List.head?_cons, Option.getD_some, List.modifyHead_cons]
    refine ⟨⟨rfl, by rw [hb]; exact ⟨hgrows, .refl _⟩, ⟨hfits, ?_, hframes.2.2⟩, by simp⟩, ?_, True.intro,
      by simp [slotsOf]⟩
    · intro u hu
      rw [Body.add_upvals] at hu
      have := hframes.2.1 u hu
      exact ⟨this.1, by rw [Body.add_slots]; omega⟩
    · intro n hn
      simp only [slotsOf, List.head?_cons, Option.map_some, Option.getD_some, Body.add_slots] at hn
      exact ⟨Int.natCast_nonneg _, by simp only; omega⟩

section Enclosed

variable {α : Type} {m : Analysis α} {a : α} {P : Nat → Prop}

/-- An analysis in a block of its own. -/
theorem declared_inBlock (hf : st.Framed) (h : Accepts (inBlock m) pl st a st')
    (hm : ∀ {st₁ st₂}, st₁.Framed → st₁.inLoop = st.inLoop → st₁.store = st.store →
      Accepts m pl st₁ a st₂ → st₁.Declared st₂ ∧ st₂.Covers P) : st.Declared st' ∧ st'.Covers P := by
  obtain ⟨st₁, hm', rfl⟩ := accepts_inBlock h
  obtain ⟨hd, hc⟩ := hm (hf.update keeps_pushBlock) (inLoop_update fun _ => rfl) rfl hm'
  refine ⟨State.Declared.between keeps_popBlock ?_ hd, hc.update keeps_popBlock⟩
  intro b b' hg
  exact ⟨hg.sig, hg.cls, hg.around, hg.slots⟩

/-- An analysis inside a loop or a defer block. -/
theorem declared_inside {e : Enclosing} (hf : st.Framed) (h : Accepts (inside e m) pl st a st')
    (hm : ∀ {st₁ st₂}, st₁.Framed → (e = .defer → st₁.inLoop = st.inLoop) → st₁.store = st.store →
      Accepts m pl st₁ a st₂ → st₁.Declared st₂ ∧ st₂.Covers P) : st.Declared st' ∧ st'.Covers P := by
  obtain ⟨st₁, hm', rfl⟩ := accepts_inside h
  have hloop : e = .defer → (st.update fun b => { b with around := e :: b.around }).inLoop = st.inLoop := by
    rintro rfl
    rcases hb : st.bodies with _ | ⟨b, outer⟩ <;> simp [State.update, State.inLoop, hb]
  obtain ⟨hd, hc⟩ := hm (hf.update (keeps_around (e :: ·))) hloop rfl hm'
  refine ⟨State.Declared.between (keeps_around List.tail) ?_ hd, hc.update (keeps_around List.tail)⟩
  intro b b' hg
  exact ⟨hg.sig, hg.cls, by simp [hg.around], hg.slots⟩

/-- An analysis in a body of its own. The bodies around it only capture variables. -/
theorem declared_inBody {b : Body} {r : α × Body} (hf : Frames st.bodies) (hb : b.Fits) (hu : b.upvals = [])
    (h : Accepts (inBody b m) pl st r st') :
    ∃ st₁, Accepts m pl { st with bodies := b :: st.bodies } r.1 st₁ ∧
      State.Framed { st with bodies := b :: st.bodies } ∧
      (State.Declared { st with bodies := b :: st.bodies } st₁ → st'.store = st.store ∧
        Captures st.bodies st'.bodies ∧ Frames (r.2 :: st'.bodies) ∧ b.Grows r.2 ∧
        slotsOf st₁.bodies = r.2.slots) := by
  obtain ⟨st₁, hm, hr, rfl⟩ := accepts_inBody h
  refine ⟨st₁, hm, ⟨⟨hb, by simp [hu], hf⟩, by simp⟩, ?_⟩
  intro hd
  have hbodies := hd.bodies
  have hframes := hd.framed.frames
  cases hst : st₁.bodies with
  | nil =>
    rw [hst] at hbodies
    exact hbodies.elim
  | cons b' outer =>
    rw [hst] at hbodies hframes hr
    simp only [List.head?_cons, Option.getD_some] at hr
    rw [hr]
    exact ⟨hd.store, hbodies.2, hframes, hbodies.1, rfl⟩

end Enclosed

end Steps

end Weft.Analysis
