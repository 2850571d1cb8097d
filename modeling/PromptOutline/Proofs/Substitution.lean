import PromptOutline.Proofs.Alike
import PromptOutline.Proofs.Indented
import PromptOutline.Proofs.Rounds

/-!
# Including is substitution

An include of a file that starts with a keyword line reads like the lines of the file themselves,
put where the include stands. The included file is read on its own, from the first column, and
closed at its end; its lines in place are read on from the margin before and closed by the lines
behind. Both ways lead to the same marks, for every outline around and every file inside.
-/

namespace PromptOutline

open Outline

/-- An include, in an outline given as text, of a file that starts with a keyword line. -/
structure Inclusion (w : Workspace) (options : ReadOptions) (fileName source : String) where
  before : List (List Char)
  directive : List Char
  behind : List (List Char)
  /-- The number of spaces that the directive stands behind. -/
  indent : Nat
  name : String
  left : Sources
  file : SourceFile
  first : List Char
  kind : TokenKind
  others : List (List Char)
  plainWidth : PlainWidth options.width
  lines_eq : Text.lines source.toList = before ++ directive :: behind
  isInclude : KeywordLine (indent + 1) .includeFile directive
  name_eq : (Text.firstWord (lineContent directive)).2 = name.toList
  name_ne : name ≠ ""
  /-- The lines before leave a margin that is whole units away from the directive. -/
  aligned : (readLines (signedUnit options.width) fileName {} 1 before).1.column ≡ indent + 1
    [MOD options.width.toNat]
  /-- The lines behind go back from the directive by whole units. -/
  returns : Returns options.width.toNat (indent + 1) behind
  loads : Sources.load { searchPaths := options.searchPaths } w name = (left, .ok file)
  file_eq : Text.lines file.contents.toList = first :: others
  isKeyword : KeywordLine 1 kind first
  /-- No other include of the run is looked up where the file is. -/
  once : (Stream.lookups w options.width
    { sources := { searchPaths := options.searchPaths },
      opened := [Outline.tokens options.width fileName source] }).count file.location ≤ 1

namespace Inclusion

variable {w : Workspace} {options : ReadOptions} {fileName source : String}

/-- The lines of the outline with the lines of the file in the place of the include. -/
def substituted (p : Inclusion w options fileName source) : List (List Char) :=
  p.before ++ ((Text.lines p.file.contents.toList).map (indented p.indent) ++ p.behind)

/-- The include stands right of the first column by whole units. -/
theorem dvd_indent (p : Inclusion w options fileName source) :
    options.width.toNat ∣ p.indent := by
  obtain ⟨k, -, hk⟩ := level?_readLines p.plainWidth.1 fileName 1 p.before
  have haligned := p.aligned
  rw [signedUnit_eq p.plainWidth, hk] at haligned
  have hunits : k * options.width.toNat ≡ p.indent [MOD options.width.toNat] :=
    Nat.ModEq.add_right_cancel' 1 haligned
  exact (hunits.dvd_iff (Nat.dvd_refl _)).mp (Nat.dvd_mul_left _ k)

/-- The margin that the include finds. -/
def margin (p : Inclusion w options fileName source) : Margin :=
  (readLines options.width.toNat fileName {} 1 p.before).1

/-- The marks that lead to the include are those that lead to any line there. -/
theorem exists_marks (p : Inclusion w options fileName source) (x y : Place) :
    ∃ marks marks', shift options.width.toNat p.margin.column x (p.indent + 1) = .moved marks ∧
      shift options.width.toNat p.margin.column y (p.indent + 1) = .moved marks' ∧
      marks.map Token.bare = marks'.map Token.bare := by
  have haligned := p.aligned
  rw [signedUnit_eq p.plainWidth] at haligned
  obtain ⟨marks, hmarks⟩ := moved_of_modEq p.plainWidth.1 haligned x
  obtain ⟨marks', hmarks'⟩ := moved_of_modEq p.plainWidth.1 haligned y
  have hbare := bare_shift options.width.toNat p.margin.column 0 x y (p.indent + 1)
  rw [margin, hmarks, Nat.add_zero, Nat.add_zero, hmarks'] at hbare
  exact ⟨marks, marks', hmarks, hmarks', Shift.moved.inj hbare⟩

/-- The tokens of the include itself. -/
theorem exists_keywordTokens (p : Inclusion w options fileName source) (x : Place) (column : Nat)
    (word : List Char) :
    ∃ t named, keywordTokens x column .includeFile word
      (Text.firstWord (lineContent p.directive)).2 =
        [t, named] ∧
      t.kind = .includeFile ∧ named.kind = .keywordText ∧ named.text = p.name := by
  have hne : p.name.toList ≠ [] := by simpa using p.name_ne
  rw [keywordTokens, p.name_eq, if_neg hne]
  exact ⟨_, _, rfl, rfl, rfl, String.ofList_toList⟩

private theorem nameless_closedTokens (u : Nat) (m : Margin) (number : Nat)
    (lines : List (List Char)) : Stream.Nameless (closedTokens u fileName m number lines) := by
  refine Stream.Nameless.append (guarded_readLines u fileName m number lines).head ?_
  intro t ht
  simp [kind_of_mem_closingMarks (List.mem_of_mem_head? ht)]

/-- The tokens of the outline have the include where those of the substituted lines have the content
of the file. -/
theorem replaced (p : Inclusion w options fileName source) {source' : String}
    (h : Text.lines source'.toList = p.substituted) :
    Stream.Replaced options.width p.name p.file (Outline.tokens options.width fileName source)
      (Outline.tokens options.width fileName source') := by
  let x : Place := { fileName, number := 1 + p.before.length, line := p.directive }
  let y : Place := { x with line := indented p.indent p.first }
  have hmargin : (readLines options.width.toNat fileName {} 1 p.before).1 = p.margin := rfl
  obtain ⟨marks, marks', hmarks, hmarks', hsame⟩ := p.exists_marks x y
  obtain ⟨t, named, hwords, ht, hnamed, hname⟩ := p.exists_keywordTokens x (p.indent + 1)
    (Text.firstWord (lineContent p.directive)).1
  obtain ⟨inside, after, hcut, hinside, hafter⟩ := closedTokens_indented p.plainWidth.1 p.dvd_indent
    p.isKeyword p.others p.returns hmarks' p.file.name (1 + p.before.length + 1)
  have hcontent := content_eq_closedTokens p.plainWidth fileName source
  rw [p.lines_eq, closedTokens_append, hmargin, closedTokens_keyword p.isInclude hmarks,
    hwords] at hcontent
  have hcontent' := content_eq_closedTokens p.plainWidth fileName source'
  rw [h, substituted, closedTokens_append, hmargin, p.file_eq, hcut] at hcontent'
  have hends : ∀ t ∈ (readLines options.width.toNat fileName {} 1 p.before).2 ++ marks,
      t.kind ≠ .endOfFile := by
    intro t ht
    refine kind_of_mem_content t (?_ : t ∈ content options.width fileName source)
    rw [hcontent, ← List.append_assoc]
    exact List.mem_append_left _ ht
  have hnameless : Stream.Nameless (closedTokens options.width.toNat fileName
      { column := p.indent + 1 } (1 + p.before.length + 1) p.behind ++
        [Token.endOfFile fileName ((Text.lines source.toList).length + 1)]) :=
    Stream.Nameless.append (nameless_closedTokens _ _ _ _)
      (by simp [Stream.Nameless, Token.endOfFile])
  have hbehind : (closedTokens options.width.toNat fileName { column := p.indent + 1 }
        (1 + p.before.length + 1) p.behind ++
        [Token.endOfFile fileName ((Text.lines source.toList).length + 1)]).map Token.bare =
      (after ++ [Token.endOfFile fileName ((Text.lines source'.toList).length + 1)]).map
        Token.bare := by
    rw [List.map_append, hafter, List.map_append]
    rfl
  have hfile : (content options.width p.file.name p.file.contents).map Token.bare =
      inside.map Token.bare := by
    rw [content_eq_closedTokens p.plainWidth, p.file_eq, hinside]
  have hbefore : ((readLines options.width.toNat fileName {} 1 p.before).2 ++ marks).map
      Token.bare = ((readLines options.width.toNat fileName {} 1 p.before).2 ++ marks').map
        Token.bare := by
    rw [List.map_append, hsame, ← List.map_append]
  have hreplaced := Stream.Replaced.mk ht hnamed hname hends hnameless hbefore hfile hbehind
  rw [tokens_eq_content, hcontent, tokens_eq_content, hcontent']
  simpa only [List.append_assoc, List.cons_append, List.nil_append] using hreplaced

end Inclusion

namespace Compile

variable {w : Workspace} {options : ReadOptions}

/-- Runs of outlines that are the same up to places end the same up to places, because both end with
the mark of the outline itself. -/
theorem bare_outcome {w' : Workspace} {width : UInt64} {s s' : Sources}
    {fileName fileName' source source' : String}
    (h : Stream.SameRun
      (Stream.run w width { sources := s, opened := [Outline.tokens width fileName source] })
      (Stream.run w' width { sources := s', opened := [Outline.tokens width fileName' source'] })) :
    (Stream.run w width { sources := s, opened := [Outline.tokens width fileName source] }).2.bare =
      (Stream.run w' width
        { sources := s', opened := [Outline.tokens width fileName' source'] }).2.bare := by
  have hsame := h.2
  rw [Stream.run_outline, Stream.run_outline] at hsame ⊢
  unfold Expansion.ended at hsame ⊢
  split at hsame <;> split at hsame
  · exact congrArg Stream.Outcome.failed hsame
  · cases hsame
  · cases hsame
  · rfl

/-- Outlines whose runs are the same up to places are read the same up to places. -/
theorem bareResult_readStream {w' : Workspace} {width : UInt64} {s s' : Sources}
    {fileName fileName' source source' : String}
    (h : Stream.SameRun
      (Stream.run w width { sources := s, opened := [Outline.tokens width fileName source] })
      (Stream.run w' width { sources := s', opened := [Outline.tokens width fileName' source'] })) :
    bareResult (readStream w width
        { sources := s, opened := [Outline.tokens width fileName source] }) =
      bareResult (readStream w' width
        { sources := s', opened := [Outline.tokens width fileName' source'] }) := by
  simp only [readStream, Builder.bare_build]
  rw [h.1, bare_outcome h]

/-- The result of reading an outline that includes a file is that of the outline with the lines of
the file in the place of the include. -/
theorem text_substituted {fileName source source' : String}
    (p : Inclusion w options fileName source) (h : Text.lines source'.toList = p.substituted) :
    SameUpToPlaces (text w options fileName source) (text w options fileName source') := by
  apply sameUpToPlaces_of_bareResult
  rw [text, text, bareResult_finish, bareResult_finish, parseText, parseText,
    bareResult_readStream ((p.replaced h).sameRun p.loads p.once)]

/-! ### A context included below another one -/

/-- A file with a context. -/
def partOutline : String := "Context: Part\n    b\n"

/-- The file and nothing else. -/
def partWorkspace : Workspace where
  tree.entries := [(["part.m6r"], .file (Text.Utf8.encode partOutline))]

/-- An outline that includes the file below a text of its own. -/
def includingSample : String := "Context: Plan\n    a\n    Include: part.m6r\nRole:\n    r\n"

/-- The include of the sample. -/
def partInclusion : Inclusion partWorkspace {} "plan" includingSample where
  before := ["Context: Plan".toList, "    a".toList]
  directive := "    Include: part.m6r".toList
  behind := ["Role:".toList, "    r".toList]
  indent := 4
  name := "part.m6r"
  left := { used := [["part.m6r"]] }
  file := { name := "part.m6r", location := ["part.m6r"], contents := partOutline }
  first := "Context: Part".toList
  kind := .context
  others := ["    b".toList]
  plainWidth := ⟨by decide, by decide⟩
  lines_eq := by decide +kernel
  isInclude := by decide +kernel
  name_eq := by decide +kernel
  name_ne := by decide
  aligned := by decide +kernel
  returns := by
    rintro line ⟨⟩
    exact ⟨1, .role, by decide +kernel, by decide, by decide⟩
  loads := by decide +kernel
  file_eq := by decide +kernel
  isKeyword := by decide +kernel
  once := by
    rw [Stream.lookups_of_within (show Stream.lookupsWithin? _ _ 32 _ = some [["part.m6r"]] by
      decide +kernel)]
    decide

/-- The sample with the context of the file in the place of the include. -/
def substitutedSample : String :=
  "Context: Plan\n    a\n    Context: Part\n        b\nRole:\n    r\n"

/-- The sample has a document, the same as the sample with the context in place. -/
theorem text_substituted_part :
    Text.lines substitutedSample.toList = partInclusion.substituted ∧
      (∃ d, text partWorkspace {} "plan" includingSample = .ok d) ∧
      SameUpToPlaces (text partWorkspace {} "plan" includingSample)
        (text partWorkspace {} "plan" substitutedSample) := by
  have hlines : Text.lines substitutedSample.toList = partInclusion.substituted := by
    decide +kernel
  refine ⟨hlines, ?_, text_substituted partInclusion hlines⟩
  have hended : (Round.after partWorkspace 4 32 (Origin.start partWorkspace 4 []
      (.text "plan" includingSample))).document?.isSome = true := by decide +kernel
  obtain ⟨raw, hraw⟩ := Option.isSome_iff_exists.mp hended
  have hparse : parseText partWorkspace 4 [] "plan" includingSample = .ok raw :=
    Origin.parse_of_ended (Round.ended_of_document? hraw)
  exact ⟨finish {} raw, by rw [text, hparse]; rfl⟩

end Compile

end PromptOutline
