import Weft.Proofs.Tree.Phrases
import Weft.Proofs.Tree.Words

/-!
# Reading ends

Readers are built for as many levels of nesting, and loops make as many rounds, as there are tokens to come and one more.
Neither number is ever used up: every phrase moves over at least one token before it nests, and so does every round. What
cannot be read is skipped, so a file is read to its end.
-/

namespace Weft.Tree

open Parse Grammar

/-- A place lies behind another one, with any tokens between them. -/
abbrev Cursor.Reaches (c c' : Cursor) : Prop := c.Leads (fun _ => True) c'

/-- The readers of phrases that have at least one token. -/
inductive Phrase : {α : Type} → (Grammar → Parse α) → Prop where
  | type : Phrase Grammar.type
  | unary : Phrase Grammar.unary
  | binary (least : Nat) : Phrase (fun g => g.binary least)
  | block : Phrase Grammar.block
  | cond : Phrase Grammar.cond
  | stmt : Phrase Grammar.stmt
  | decl : Phrase Grammar.decl
  | paramType : Phrase Grammar.paramType
  | typeStep : Phrase Grammar.typeStep
  | param : Phrase Grammar.param
  | lambda : Phrase Grammar.lambda
  | integer : Phrase fun _ => Grammar.integer
  | argument : Phrase Grammar.argument
  | fieldInit : Phrase Grammar.fieldInit
  | operand : Phrase Grammar.operand
  | unaryStep : Phrase Grammar.unaryStep
  | binaryStep (least : Nat) : Phrase fun g => g.binaryStep least
  | declared : Phrase Grammar.declared
  | varDecl (start : Pos) (fileLocal semicolon : Bool) : Phrase fun g => g.varDecl start fileLocal semicolon
  | simpleStmt : Phrase Grammar.simpleStmt
  | blockStep : Phrase Grammar.blockStep
  | condStep : Phrase Grammar.condStep
  | forLoop : Phrase Grammar.forLoop
  | stmtStep : Phrase Grammar.stmtStep
  | funcDecl (start : Pos) (m : Modifiers) (withBody : Bool) : Phrase fun g => g.funcDecl start m withBody
  | classMember : Phrase Grammar.classMember
  | classDecl (start : Pos) (fileLocal : Bool) : Phrase fun g => g.classDecl start fileLocal
  | interfaceMember : Phrase Grammar.interfaceMember
  | interfaceDecl : Phrase Grammar.interfaceDecl
  | enumItem : Phrase fun _ => Grammar.enumItem
  | enumDecl : Phrase fun _ => Grammar.enumDecl
  | spaceDecl : Phrase Grammar.spaceDecl
  | plainDecl : Phrase Grammar.plainDecl
  | declStep : Phrase Grammar.declStep
  | name : Phrase fun _ => expectName
  | importDecl : Phrase fun _ => Tree.importDecl
  | fileItem : Phrase Tree.fileItem

/-- A type that nothing follows. -/
def wholeType (g : Grammar) : Parse TypeExpr := do
  let t ← g.type
  if ← sees .eof then return t else fail (.afterType (← Parse.current))

/-- The readers of the parser: those of phrases, those that may find nothing to read, and those of whole texts. -/
inductive Reader : {α : Type} → (Grammar → Parse α) → Prop where
  | phrase {α : Type} {p : Grammar → Parse α} (h : Phrase p) : Reader p
  | returnTypes : Reader Grammar.returnTypes
  | startsVarDecl : Reader Grammar.startsVarDecl
  | params : Reader Grammar.params
  | chain (start : Pos) (root : Root) : Reader fun g => g.chain start root
  | chainOr (start : Pos) (root : Root) (alone : Expr) : Reader fun g => g.chainOr start root alone
  | castType : Reader Grammar.castType
  | parenCond : Reader Grammar.parenCond
  | yieldRest (start : Pos) : Reader fun g => g.yieldRest start
  | startsFunc : Reader Grammar.startsFunc
  | funcHeader : Reader Grammar.funcHeader
  | bases : Reader Grammar.bases
  | file (path : String) : Reader (Tree.file path)
  | wholeType : Reader wholeType

/-- The loops of the parser with their rounds. -/
inductive Loop : {α : Type} → (Grammar → Nat → Parse α) → Prop where
  | dottedRest : Loop fun _ => Grammar.dottedRest
  | chainItems : Loop Grammar.chainItems
  | binaryRest (least : Nat) (x : Expr) : Loop fun g => g.binaryRest least x
  | modifiers (m : Modifiers) : Loop fun _ => Grammar.modifiers m
  | itemsUntil {α : Type} {p : Grammar → Parse α} (close : Kind) (h : Phrase p) : Loop fun g => itemsUntil close (p g)
  | items {α : Type} {p : Grammar → Parse α} {separator : Kind} (hsep : separator ≠ .eof) (h : Phrase p) :
    Loop fun g => items separator (p g)
  | repeatUntil {α : Type} {p : Grammar → Parse α} {stop : List Kind} (hstop : .eof ∈ stop) (h : Phrase p) :
    Loop fun g => repeatUntil stop (guarded (p g))

/-- The items that a file, a namespace, a class, an interface and a block go on after when they cannot be read. -/
inductive Recovers : {α : Type} → (Grammar → Parse α) → Prop where
  | fileItem : Recovers Tree.fileItem
  | decl : Recovers Grammar.decl
  | classMember : Recovers Grammar.classMember
  | interfaceMember : Recovers Grammar.interfaceMember
  | stmt : Recovers Grammar.stmt

theorem Recovers.phrase {α : Type} {p : Grammar → Parse α} (h : Recovers p) : Phrase p := by
  cases h with
  | fileItem => exact .fileItem
  | decl => exact .decl
  | classMember => exact .classMember
  | interfaceMember => exact .interfaceMember
  | stmt => exact .stmt

/-! ## What each reader does -/

section Readers

variable {α β : Type} {n : Nat} {g g' : Grammar}

theorem takes_importDecl : Takes (fun _ => True) n importDecl importDecl :=
  skims_here.takes fun _ => (takes_expect (by decide) True.intro).then fun _ =>
    (takes_expect (by decide) True.intro).skims.bind fun _ => (takes_expect (by decide) True.intro).skims.bind fun _ =>
    (skims_spanFrom _).bind fun _ => skims_pure

theorem Grammar.Agrees.fileItem (h : Agrees n g g') : Takes (fun _ => True) n (fileItem g) (fileItem g') := by
  refine (skims_sees _).takes fun _ => ?_
  split
  · exact takes_importDecl.then fun _ => skims_pure
  · exact h.decl.weaken.then fun _ => skims_pure

theorem Phrase.takes {p : Grammar → Parse α} (hp : Phrase p) (h : Agrees n g g') :
    Takes (fun _ => True) n (p g) (p g') := by
  have hup := Nat.le_succ n
  cases hp with
  | type => exact h.type.weaken
  | unary => exact h.unary.weaken
  | binary least => exact (h.binary least).weaken
  | block => exact h.block.weaken
  | cond => exact h.cond.weaken
  | stmt => exact h.stmt.weaken
  | decl => exact h.decl.weaken
  | paramType => exact h.paramType.weaken
  | typeStep => exact (h.typeStep.mono hup).weaken
  | param => exact h.param.weaken
  | lambda => exact (h.lambda.mono hup).weaken
  | integer => exact (takes_integer.mono hup).weaken
  | argument => exact h.argument.weaken
  | fieldInit => exact h.fieldInit.weaken
  | operand => exact (h.operand.mono hup).weaken
  | unaryStep => exact (h.unaryStep.mono hup).weaken
  | binaryStep least => exact ((h.binaryStep least).mono hup).weaken
  | declared => exact (h.declared.mono hup).weaken
  | varDecl start fileLocal semicolon => exact ((h.varDecl start fileLocal semicolon).mono hup).weaken
  | simpleStmt => exact (h.simpleStmt.mono hup).weaken
  | blockStep => exact (h.blockStep.mono hup).weaken
  | condStep => exact (h.condStep.mono hup).weaken
  | forLoop => exact (h.forLoop.mono hup).weaken
  | stmtStep => exact (h.stmtStep.mono hup).weaken
  | funcDecl start m withBody => exact ((h.funcDecl start m withBody).mono hup).weaken
  | classMember => exact h.classMember.weaken
  | classDecl start fileLocal => exact ((h.classDecl start fileLocal).mono hup).weaken
  | interfaceMember => exact h.interfaceMember.weaken
  | interfaceDecl => exact (h.interfaceDecl.mono hup).weaken
  | enumItem => exact takes_enumItem.weaken
  | enumDecl => exact takes_enumDecl.weaken
  | spaceDecl => exact (h.spaceDecl.mono hup).weaken
  | plainDecl => exact (h.plainDecl.mono hup).weaken
  | declStep => exact (h.declStep.mono hup).weaken
  | name => exact takes_name.weaken
  | importDecl => exact takes_importDecl
  | fileItem => exact h.fileItem

/-- A file is read up to the token that marks its end. -/
theorem runs_file (h : Agrees n g g') (path : String) {c : Cursor} (hc : c.Ended) (hlen : c.rest.length < n) :
    Runs (fun _ => True) c (file path g) (file path g') fun _ c' => c'.rest = [] := by
  refine runs_here.bind ?_
  rintro start c' - rfl
  refine runs_rounds.bind ?_
  rintro k c - ⟨rfl, rfl⟩
  refine (runs_recovering (by decide) h.fileItem hc hlen (Nat.lt_succ_self _) (Nat.lt_succ_self _)).bind
    fun items c₁ hleads hend => ?_
  refine runs_current.bind ?_
  rintro t c₂ - ⟨rfl, rfl⟩
  refine runs_pure ?_
  by_contra hrest
  exact (hleads.ended hc).current_ne hrest (List.mem_singleton.mp hend)

theorem Reader.skims {p : Grammar → Parse α} (hp : Reader p) (h : Agrees n g g') :
    Skims (fun _ => True) n (p g) (p g') := by
  have hup := Nat.le_succ n
  cases hp with
  | phrase hp => exact (hp.takes h).skims
  | returnTypes => exact h.returnTypes.weaken
  | startsVarDecl => exact (h.startsVarDecl.mono hup).weaken
  | params => exact h.params.weaken
  | chain start root => exact (h.chain start root).weaken
  | chainOr start root alone => exact (h.chainOr start root alone).weaken
  | castType => exact Skims.weaken fun c hc hlen => (h.castType hc (by omega)).imp fun _ _ _ _ => True.intro
  | parenCond => exact h.parenCond.weaken
  | yieldRest start => exact (h.yieldRest start).weaken
  | startsFunc => exact (h.startsFunc.mono hup).weaken
  | funcHeader => exact h.funcHeader.weaken
  | bases => exact h.bases.weaken
  | file path => exact fun c hc hlen => (runs_file h path hc hlen).imp fun _ _ _ _ => True.intro
  | wholeType =>
    refine h.type.skims.weaken.bind fun _ => (skims_sees _).bind fun _ => ?_
    split
    · exact skims_pure
    · exact skims_current.bind fun _ => (takes_fail _).skims

/-- More rounds than tokens to come change nothing. -/
theorem Loop.runs {p : Grammar → Nat → Parse α} (hp : Loop p) (h : Agrees n g g') {c : Cursor} {k l : Nat}
    (hc : c.Ended) (hn : c.rest.length < n) (hk : c.rest.length < k) (hl : c.rest.length < l) :
    Runs (fun _ => True) c (p g k) (p g' l) fun _ _ => True := by
  cases hp with
  | dottedRest => exact (loopsSkim_dottedRest c k l hc hn hk hl).mono fun _ _ => True.intro
  | chainItems => exact (h.chainItems c k l hc hn hk hl).mono fun _ _ => True.intro
  | binaryRest least x => exact (h.binaryRest least x c k l hc hn hk hl).mono fun _ _ => True.intro
  | modifiers m => exact (loopsSkim_modifiers m c k l hc hn hk hl).mono fun _ _ => True.intro
  | itemsUntil close hp => exact loopsSkim_itemsUntil True.intro (hp.takes h) c k l hc hn hk hl
  | items hsep hp => exact (loopsTake_items hsep True.intro (hp.takes h)).skims c k l hc hn hk hl
  | repeatUntil hstop hp =>
    exact (runs_recovering hstop (hp.takes h) hc hn hk hl).imp fun _ _ _ _ => True.intro

end Readers

theorem current_apply (c : Cursor) : Parse.current c = (some c.current, c) := rfl

/-- A loop over items that are skipped when they cannot be read always gives a list. -/
theorem exists_repeatUntil {α : Type} (stop : List Kind) (p : Parse α) (k : Nat) (c : Cursor) :
    ∃ xs c', repeatUntil stop (guarded p) k c = (some xs, c') := by
  induction k generalizing c with
  | zero => exact ⟨[], c, rfl⟩
  | succ k ih =>
    by_cases hstop : c.current.kind ∈ stop
    · refine ⟨[], c, ?_⟩
      rw [repeatUntil, bind_apply (current_apply c), Option.elim_some, if_pos hstop]
      rfl
    · obtain ⟨r, c₁, hround⟩ : ∃ r c₁, guarded p c = (some r, c₁) := by
        unfold guarded
        split <;> exact ⟨_, _, rfl⟩
      obtain ⟨xs, c₂, hmore⟩ := ih c₁
      cases r with
      | none =>
        refine ⟨xs, c₂, ?_⟩
        rw [repeatUntil, bind_apply (current_apply c), Option.elim_some, if_neg hstop]
        exact (bind_apply hround).trans hmore
      | some x =>
        refine ⟨x :: xs, c₂, ?_⟩
        rw [repeatUntil, bind_apply (current_apply c), Option.elim_some, if_neg hstop]
        exact (bind_apply hround).trans (bind_apply hmore)

theorem guarded_ne_none {α : Type} (p : Parse α) (c c' : Cursor) : guarded p c ≠ (none, c') := by
  unfold guarded
  split <;> exact fun h => by cases h

theorem attempt_snd {α : Type} {p : Parse α} {c : Cursor} (h : (attempt p c).1 = some none) : (attempt p c).2 = c := by
  unfold attempt at *
  split
  · next x c' hpc =>
    rw [hpc] at h
    cases h
  · rfl

theorem lookahead_apply {α : Type} (p : Parse α) (c : Cursor) : lookahead p c = (some (p c).1, c) := rfl

theorem startsVarDecl_snd (g : Grammar) (c : Cursor) : (g.startsVarDecl c).2 = c := by
  rw [startsVarDecl, bind_apply (current_apply c), Option.elim_some]
  dsimp only
  split
  · rw [bind_apply (lookahead_apply _ c)]
    rfl
  · rfl

/-- The items of a file are read by one loop from the start of its text on. -/
theorem exists_parseFile (path : String) (src : Bytes) :
    ∃ items c',
      repeatUntil [.eof] (guarded (fileItem (levels ((Cursor.start path src).rest.length + 1))))
        ((Cursor.start path src).rest.length + 1) (Cursor.start path src) = (some items, c') ∧
      read path src (file path) = (some (parseFile path src).1, c') ∧
      (parseFile path src).1.imports = items.filterMap Sum.getLeft? ∧ (parseFile path src).2 = c'.problems := by
  obtain ⟨items, c', hitems⟩ := exists_repeatUntil [.eof]
    (fileItem (levels ((Cursor.start path src).rest.length + 1))) ((Cursor.start path src).rest.length + 1)
    (Cursor.start path src)
  obtain ⟨f, hread, himports⟩ : ∃ f, read path src (file path) = (some f, c') ∧
      f.imports = items.filterMap Sum.getLeft? :=
    ⟨_, (bind_apply rfl).trans <| (bind_apply rfl).trans <| (bind_apply hitems).trans rfl, rfl⟩
  have hparse : parseFile path src = (f, c'.problems) := by rw [parseFile, hread]
  exact ⟨items, c', hitems, by rw [hread, hparse], by rw [hparse, himports], by rw [hparse]⟩

/-- A text spells a type if a type that nothing follows is read from it without a problem. -/
theorem parseType_of_read {src : Bytes} {r : Option TypeExpr} {c : Cursor} (h : read "" src wholeType = (r, c)) :
    parseType src =
      r.elim (.error c.problems) fun t => if c.problems.isEmpty then .ok t else .error c.problems := by
  unfold wholeType at h
  unfold parseType
  dsimp only
  rw [h]
  cases r <;> rfl

/-! ## Whole texts -/

/-- A reader comes to an end at a place: more levels of nesting than tokens to come change nothing, it moves over tokens
from left to right, and if it gives up, it has noted a problem. -/
structure Settles {α : Type} (p : Grammar → Parse α) (c : Cursor) : Prop where
  same : ∀ m, c.rest.length < m → p (levels m) c = p (levels (c.rest.length + 1)) c
  moves : c.Reaches (p (levels (c.rest.length + 1)) c).2
  index : c.index ≤ (p (levels (c.rest.length + 1)) c).2.index
  notes : (p (levels (c.rest.length + 1)) c).1 = none → (p (levels (c.rest.length + 1)) c).2.problems ≠ c.problems

theorem Reader.settles {α : Type} {p : Grammar → Parse α} (hp : Reader p) {c : Cursor} (hc : c.Ended) : Settles p c := by
  have hrun : ∀ m, c.rest.length < m → Runs (fun _ => True) c (p (Grammar.levels m))
      (p (Grammar.levels (c.rest.length + 1))) fun _ _ => True :=
    fun m hm => hp.skims (agrees_levels hm (Nat.le_refl _)) c hc (Nat.lt_succ_self _)
  have hself := hrun _ (Nat.lt_succ_self _)
  exact ⟨fun m hm => (hrun m hm).same, hself.leads, hself.leads.index_le, fun hnone => (hself.notes _ (Prod.ext hnone rfl)).2⟩

theorem Settles.problems_ne {α : Type} {p : Grammar → Parse α} {path : String} {src : Bytes}
    (h : Settles p (Cursor.start path src)) (hnone : (read path src p).1 = none) : (read path src p).2.problems ≠ [] := by
  intro hnil
  have hprefix : (Cursor.start path src).problems <+: (read path src p).2.problems := h.moves.problems
  rw [hnil] at hprefix
  exact h.notes hnone (hnil.trans (List.prefix_nil.mp hprefix).symm)

theorem Recovers.index_lt {α : Type} {p : Grammar → Parse α} (hp : Recovers p) {c : Cursor} (hc : c.Ended)
    (hk : c.current.kind ≠ .eof) {m : Nat} (hm : c.rest.length < m) :
    c.index < (guarded (p (levels m)) c).2.index := by
  obtain ⟨ts, hrest⟩ := hc.exists_rest hk
  have hitem := hp.phrase.takes (agrees_levels hm hm) c hc (Nat.lt_succ_self _)
  have hround := runs_guarded (by simp [hrest]) hitem fun _ _ hlt => hlt
  rcases hrun : guarded (p (levels m)) c with ⟨_ | r, c'⟩
  · exact absurd hrun (guarded_ne_none _ _ _)
  · obtain ⟨hleads, hlt, -⟩ := hround.reads r c' hrun
    have hadd := hleads.index_add
    show c.index < c'.index
    omega

/-- What holds at a place of a text, for readers of more levels and loops of more rounds than there are tokens to come. -/
structure Cursor.Steady (c : Cursor) : Prop where
  /-- Every reader comes to an end. -/
  readers : ∀ {α : Type} {p : Grammar → Parse α}, Reader p → Settles p c
  /-- Every loop ends before its rounds do, and does not move to the left. -/
  loops : ∀ {α : Type} {p : Grammar → Nat → Parse α}, Loop p → ∀ m k, c.rest.length < m → c.rest.length < k →
    p (levels m) k c = p (levels (c.rest.length + 1)) (c.rest.length + 1) c ∧ c.index ≤ (p (levels m) k c).2.index
  /-- Every round of a loop that goes on after what it cannot read moves on, unless the text is at its end. -/
  rounds : ∀ {α : Type} {p : Grammar → Parse α}, Recovers p → c.current.kind ≠ .eof → ∀ m, c.rest.length < m →
    c.index < (guarded (p (levels m)) c).2.index
  /-- Looking ahead for a declaration of variables changes nothing. -/
  lookahead : ∀ m, ((levels m).startsVarDecl c).2 = c
  /-- Neither does looking for a cast that is not there. -/
  cast : ∀ m, ((levels m).castType c).1 = some none → ((levels m).castType c).2 = c

theorem Cursor.Ended.steady {c : Cursor} (hc : c.Ended) : c.Steady where
  readers hp := hp.settles hc
  loops hp _ _ hm hk := by
    have hrun := hp.runs (agrees_levels hm (Nat.le_refl _)) hc (Nat.lt_succ_self _) hk (Nat.lt_succ_self _)
    exact ⟨hrun.same, hrun.leads.index_le⟩
  rounds hp hk _ hm := hp.index_lt hc hk hm
  lookahead _ := startsVarDecl_snd _ c
  cast _ := attempt_snd

/-- The parser comes to an end on every text, and moves on while it reads: it gives a file, and an expression or a type
or else a problem; no reader and no loop depends on how many levels and rounds it is given, none moves to the left, and
each round of a loop over items moves to the right; and a file without problems is read to its last token. -/
theorem parser_progress (path : String) (src : Bytes) :
    (∃ f, (read path src (file path)).1 = some f ∧ (parseFile path src).1 = f) ∧
    ((parseExpression path src).1 = none → (parseExpression path src).2 ≠ []) ∧
    (∀ problems, parseType src = .error problems → problems ≠ []) ∧
    (∀ c, (Cursor.start path src).Reaches c → c.Steady) ∧
    ((parseFile path src).2 = [] →
      Token.scan src = (Cursor.start path src).rest ++ [(Cursor.start path src).eof] ∧
      (read path src (file path)).2.rest = [] ∧
      (read path src (file path)).2.index = (Cursor.start path src).rest.length) := by
  have hstart := Cursor.ended_start path src
  have hread : ∀ {α : Type} {p : Grammar → Parse α}, Reader p → Settles p (Cursor.start path src) :=
    fun hp => hp.settles hstart
  obtain ⟨items, c', -, hparse, -, hproblems⟩ := exists_parseFile path src
  refine ⟨⟨_, by rw [hparse], rfl⟩, (hread (.phrase (.binary 0))).problems_ne, ?_,
    fun c hc => (hc.ended hstart).steady, fun hclean => ?_⟩
  · intro problems herror
    rcases htype : read "" src wholeType with ⟨_ | t, c⟩ <;> rw [parseType_of_read htype] at herror
    · cases herror
      have hne := (Reader.wholeType.settles (Cursor.ended_start "" src)).problems_ne (by rw [htype])
      rwa [htype] at hne
    · rw [Option.elim_some] at herror
      split at herror
      · cases herror
      · next hne =>
        cases herror
        simpa using hne
  · obtain ⟨hleads, hrest⟩ := (runs_file (agrees_levels (Nat.le_refl _) (Nat.le_refl _)) path hstart
      (Nat.lt_succ_self _)).reads _ c' hparse
    have hscan := hleads.problems_nil (hproblems.symm.trans hclean)
    have hadd := hleads.index_add
    have hzero : (Cursor.start path src).index = 0 := rfl
    rw [hparse]
    rw [hrest, List.length_nil] at hadd
    refine ⟨Cursor.scan_start hscan, hrest, ?_⟩
    show c'.index = _
    omega

end Weft.Tree
