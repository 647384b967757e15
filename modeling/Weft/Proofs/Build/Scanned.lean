import Mathlib
import Weft.Build.Freshness
import Weft.Proofs.Tree.Termination

/-!
# Imports found without reading

A build looks for the word for an import in front of a string. In a text that is read without problems that word stands
in imports only: a declaration has no token of that kind, whatever was tried while it was read.
-/

namespace Weft.Build

open Weft.Tree Weft.Tree.Parse Weft.Tree.Grammar

/-! ## Tokens -/

theorem importPaths_cons {t : Token} (ht : t.kind ≠ .kwImport) (ys : List Token) :
    importPaths (t :: ys) = importPaths ys := by
  cases ys with
  | nil => rfl
  | cons y ys => rw [importPaths, if_neg fun h => ht h.1]

theorem importPaths_append {ts : List Token} (hts : ∀ t ∈ ts, t.kind ≠ .kwImport) (ys : List Token) :
    importPaths (ts ++ ys) = importPaths ys := by
  induction ts with
  | nil => rfl
  | cons t ts ih =>
    rw [List.cons_append, importPaths_cons (hts t (by simp))]
    exact ih fun u hu => hts u (by simp [hu])

theorem importPaths_import {a b e : Token} (ha : a.kind = .kwImport) (hb : b.kind = .string) (he : e.kind = .semicolon)
    (ys : List Token) : importPaths (a :: b :: e :: ys) = b.text :: importPaths ys := by
  rw [importPaths, if_pos ⟨ha, hb⟩, importPaths_cons (by rw [hb]; decide), importPaths_cons (by rw [he]; decide)]

/-! ## Items of a file -/

variable {n : Nat} {g g' : Grammar}

/-- Between two places without a problem, the paths that are found are some paths. -/
def Finds (c : Cursor) (paths : List String) (c' : Cursor) : Prop :=
  c'.problems = c.problems → ∀ ys, importPaths (c.rest ++ ys) = paths ++ importPaths (c'.rest ++ ys)

theorem Finds.trans {c c' c'' : Cursor} {paths paths' : List String} (hleads : c.Reaches c') (hleads' : c'.Reaches c'')
    (h : Finds c paths c') (h' : Finds c' paths' c'') : Finds c (paths ++ paths') c'' := by
  intro hp ys
  have hleft := hleads.problems_eq hleads' hp
  rw [h hleft, h' (hp.trans hleft.symm), List.append_assoc]

theorem runs_importDecl {c : Cursor} (hc : c.Ended) :
    Runs (fun _ => True) c importDecl importDecl fun i c' => Finds c [i.path] c' := by
  refine runs_here.bind ?_
  rintro start c₀ - rfl
  refine (runs_expect hc (by decide) True.intro).bind fun a c₁ hleads₁ ⟨hrest₁, ha⟩ => ?_
  have hc₁ := hleads₁.ended hc
  refine (runs_expect hc₁ (by decide) True.intro).bind fun b c₂ hleads₂ ⟨hrest₂, hb⟩ => ?_
  refine (runs_expect (hleads₂.ended hc₁) (by decide) True.intro).bind fun e c₃ _ ⟨hrest₃, he⟩ => ?_
  have hspan : Runs (fun _ => True) c₃ (spanFrom start) (spanFrom start) fun _ c' => c' = c₃ := runs_off rfl rfl
  refine hspan.bind fun span c₄ _ hc₄ => runs_pure ?_
  intro _ ys
  rw [hrest₁, hrest₂, hrest₃, hc₄]
  exact importPaths_import ha hb he _

theorem runs_decl (h : Agrees n g g') {c : Cursor} (hc : c.Ended) (hlen : c.rest.length < n) :
    Runs (fun _ => True) c g.decl g'.decl fun _ c' => Finds c [] c' := by
  refine Runs.mono ((h.decl c hc hlen).imp fun d c' hleads _ hp ys => ?_) fun _ _ => True.intro
  obtain ⟨ts, hts, -, hinner⟩ := hleads.tokens
  rw [hts, List.append_assoc]
  exact importPaths_append (hinner hp) _

/-- The paths of the imports among items of a file. -/
def pathsOf (items : List (Import ⊕ Decl)) : List String := (items.filterMap Sum.getLeft?).map Import.path

theorem runs_fileItem (h : Agrees n g g') {c : Cursor} (hc : c.Ended) (hlen : c.rest.length < n) :
    Runs (fun _ => True) c (fileItem g) (fileItem g') fun i c' => Finds c (pathsOf [i]) c' := by
  refine (runs_sees _).bind ?_
  rintro b c₀ - ⟨rfl, rfl⟩
  split
  · exact (runs_importDecl hc).bind fun i c₁ hleads hfinds => runs_pure hfinds
  · exact (runs_decl h hc hlen).bind fun d c₁ hleads hfinds => runs_pure hfinds

theorem pathsOf_append (items items' : List (Import ⊕ Decl)) : pathsOf (items ++ items') = pathsOf items ++ pathsOf items' := by
  simp [pathsOf]

/-- The items of a file have the paths that are found in its tokens. -/
theorem runs_fileItems (h : Agrees n g g') {c : Cursor} {k l : Nat} (hc : c.Ended) (hlen : c.rest.length < n)
    (hk : c.rest.length < k) (hl : c.rest.length < l) :
    Runs (fun _ => True) c (repeatUntil [.eof] (guarded (fileItem g)) k) (repeatUntil [.eof] (guarded (fileItem g')) l)
      fun items c' => Finds c (pathsOf items) c' := by
  refine runs_repeatUntil (T := fun c items c' => Finds c (pathsOf items) c') (by decide)
    (fun c hc hlen hrest =>
      runs_guarded hrest ((h.fileItem c hc hlen).and (runs_fileItem h hc hlen)) fun _ _ hq => hq.1)
    ?_ ?_ hc hlen hk hl
  · exact fun c _ _ ys => rfl
  · intro c r c' items c'' hleads hround hleads' hmore
    cases r with
    | none => exact fun hp => absurd (hleads.problems_eq hleads' hp) hround
    | some i =>
      rw [pathsOf_append]
      exact hround.2.trans hleads hleads' hmore

/-- In a text that is read without problems, the paths that follow the word for an import among its tokens are the paths
of its imports, in their order and as often as they are imported. -/
theorem scanImports_eq (path : String) (src : Bytes) (h : (parseFile path src).2 = []) :
    scanImports src = (parseFile path src).1.imports.map Import.path := by
  have hstart := Cursor.ended_start path src
  have hself : Agrees ((Cursor.start path src).rest.length + 1) _ _ := agrees_levels (Nat.le_refl _) (Nat.le_refl _)
  have hlen := Nat.lt_succ_self (Cursor.start path src).rest.length
  obtain ⟨items, c', hitems, hparse, himports, hproblems⟩ := exists_parseFile path src
  have hclean := hproblems.symm.trans h
  obtain ⟨hleads, hfinds⟩ := (runs_fileItems hself hstart hlen hlen hlen).reads items c' hitems
  have hrest := ((runs_file hself path hstart hlen).reads _ c' hparse).2
  have hscan := hleads.problems_nil hclean
  calc scanImports src
    _ = importPaths ((Cursor.start path src).rest ++ [(Cursor.start path src).eof]) := by
        rw [scanImports, Cursor.scan_start hscan]
    _ = pathsOf items ++ importPaths (c'.rest ++ [(Cursor.start path src).eof]) := hfinds (hclean.trans hscan.symm) _
    _ = pathsOf items := by rw [hrest, List.nil_append, importPaths, List.append_nil]; simp
    _ = (parseFile path src).1.imports.map Import.path := by rw [himports, pathsOf]

/-- A text that imports a module twice. -/
def importingTwice : Bytes := Text.encode "import \"a\"; var x = 1; import \"a\";"

theorem problems_importingTwice : (parseFile "m.weft" importingTwice).2 = [] := by
  have hscan : Token.scan importingTwice =
      let span (start stop : Nat) : Span := ⟨⟨start, 1, start + 1⟩, ⟨stop, 1, stop + 1⟩⟩
      [⟨.kwImport, "import", span 0 6⟩, ⟨.string, "a", span 7 10⟩, ⟨.semicolon, ";", span 10 11⟩,
        ⟨.kwVar, "var", span 12 15⟩, ⟨.ident, "x", span 16 17⟩, ⟨.assign, "=", span 18 19⟩, ⟨.int, "1", span 20 21⟩,
        ⟨.semicolon, ";", span 21 22⟩, ⟨.kwImport, "import", span 23 29⟩, ⟨.string, "a", span 30 33⟩,
        ⟨.semicolon, ";", span 33 34⟩, ⟨.eof, "", span 34 34⟩] := by
    cbv
  unfold parseFile Tree.read Cursor.start
  rw [hscan]
  rfl

theorem scanImports_importingTwice :
    (parseFile "m.weft" importingTwice).2 = [] ∧
      scanImports importingTwice = (parseFile "m.weft" importingTwice).1.imports.map Import.path :=
  ⟨problems_importingTwice, scanImports_eq "m.weft" importingTwice problems_importingTwice⟩

end Weft.Build
