import PromptOutline.Proofs.Rereading

/-!
# Reading up to places

Building a document and joining its lines look at the kinds and texts of tokens. Files, lines and
columns are carried along and end up in nodes and problems, where nothing looks at them again. So
each step does the same before and after places are forgotten, and events that differ only in
places give documents, or problems, that differ only in places.
-/

namespace PromptOutline

/-- A token without its place. -/
def Token.bare (t : Token) : Token :=
  { t with rawLine := "", fileName := "", line := 0, column := 0 }

/-- A problem without its place. -/
def Diagnostic.bare (d : Diagnostic) : Diagnostic :=
  { d with fileName := "", line := 0, column := 0, sourceLine := "" }

/-- An event without its place. -/
def Event.bare : Event → Event
  | .token t => .token t.bare
  | .problem d => .problem d.bare

/-- The end of a stream without its place. -/
def Stream.Outcome.bare : Stream.Outcome → Stream.Outcome
  | .finished ending => .finished ending.bare
  | .failed d => .failed d.bare

/-- A node without its place. -/
def Node.bare (n : Node) : Node := { n with toContent := n.toContent.bare }

/-- A document whose nodes have no places. -/
def Document.bare (d : Document) : Document := { d with nodes := d.nodes.map Node.bare }

/-- A document being built, without places. -/
def Builder.bare (b : Builder) : Builder :=
  { b with document := b.document.bare, problems := b.problems.map Diagnostic.bare }

/-- A token keeps its kind without its place. -/
@[simp] theorem Token.kind_bare (t : Token) : t.bare.kind = t.kind := rfl

/-- A token keeps its text without its place. -/
@[simp] theorem Token.text_bare (t : Token) : t.bare.text = t.text := rfl

/-- Tokens that are the same up to places are of the same kind. -/
theorem Token.kind_of_bare {t u : Token} (h : t.bare = u.bare) : t.kind = u.kind := by
  rw [← kind_bare t, h, kind_bare]

/-- Tokens that are the same up to places have the same text. -/
theorem Token.text_of_bare {t u : Token} (h : t.bare = u.bare) : t.text = u.text := by
  rw [← text_bare t, h, text_bare]

/-- A diagnostic at a token depends on the message alone, places aside. -/
theorem Diagnostic.bare_ofToken (message : String) (t u : Token) :
    (ofToken message t).bare = (ofToken message u).bare := rfl

/-! ### Documents -/

namespace Document

private theorem bare_modify (d : Document) (id : NodeId) {f : Node → Node}
    (h : ∀ n, (f n).bare = f n.bare) : (d.modify id f).bare = d.bare.modify id f := by
  have hnodes : (d.nodes.modify id f).map Node.bare = (d.nodes.map Node.bare).modify id f := by
    ext i
    · simp
    · simp only [Array.getElem_map, Array.getElem_modify]
      split
      · exact h _
      · rfl
  simp only [modify, bare, hnodes]

/-- A document keeps its size without places. -/
@[simp] theorem size_bare (d : Document) : d.bare.size = d.size := Array.size_map ..

/-- A document keeps its roots without places. -/
@[simp] theorem root?_bare (d : Document) (s : Section) : d.bare.root? s = d.root? s := by
  cases s <;> rfl

private theorem node_bare (d : Document) (id : NodeId) : d.bare.node id = (d.node id).bare := by
  simp only [node, bare, Array.getElem?_map]
  cases d.nodes[id]? <;> rfl

private theorem bare_add (d : Document) (c : Content) :
    (d.add c).1.bare = (d.bare.add c.bare).1 ∧ (d.bare.add c.bare).2 = (d.add c).2 := by
  constructor
  · simp only [add, bare, Array.map_push]
    rfl
  · exact Array.size_map ..

private theorem bare_append (d : Document) (parent child : NodeId) :
    (d.append parent child).bare = d.bare.append parent child := by
  rw [append, append, bare_modify, bare_modify] <;> exact fun _ => rfl

private theorem bare_setRoot (d : Document) (kind : TokenKind) (id : NodeId) :
    (d.setRoot kind id).1.bare = (d.bare.setRoot kind id).1 := by
  unfold setRoot
  split
  · rfl
  · next s _ =>
    rw [root?_bare]
    split
    · rfl
    · cases s <;> rfl

/-- Trees are seen the same before and after places are forgotten. -/
theorem treeTo_bare (d : Document) (depth : Nat) (id : NodeId) :
    d.bare.treeTo depth id = (d.treeTo depth id).bare := by
  induction depth generalizing id with
  | zero => rw [treeTo, treeTo, node_bare]; rfl
  | succ depth ih =>
    rw [treeTo, treeTo, node_bare, Tree.bare, Tree.bareAll_eq_map, List.map_map]
    exact congrArg _ (List.map_congr_left fun child _ => ih child)

private theorem sectionTree?_bare (d : Document) (s : Section) :
    d.bare.sectionTree? s = (d.sectionTree? s).map Tree.bare := by
  rw [sectionTree?, sectionTree?, root?_bare, Option.map_map]
  refine congrArg (Option.map · _) (funext fun id => ?_)
  rw [tree, size_bare, treeTo_bare]
  rfl

end Document

/-! ### Building -/

namespace Builder

private theorem bare_note (b : Builder) (d : Diagnostic) :
    (b.note d).bare = b.bare.note d.bare := by
  simp [bare, note]

private theorem bare_report (b : Builder) (t : Token) (message : String) :
    (b.report t message).bare = b.bare.report t.bare message :=
  bare_note b _

private theorem bare_addBelow (b : Builder) (f : Frame) (t : Token) :
    (b.addBelow f t).bare = b.bare.addBelow f t.bare := by
  obtain ⟨hadd, hid⟩ := Document.bare_add b.document (.ofToken t)
  simp only [addBelow, bare, Document.bare_append, hadd]
  exact congrArg (fun id => ({ b.bare with
    document := (b.document.bare.add (Content.ofToken t).bare).1.append f.block id } : Builder))
    hid.symm

private theorem bare_openSection (b : Builder) (t : Token) :
    (b.openSection t).bare = b.bare.openSection t.bare := by
  obtain ⟨hadd, hid⟩ := Document.bare_add b.document (.ofToken t)
  simp only [openSection, bare, Document.bare_setRoot, hadd]
  exact congrArg (fun id => ({ b.bare with
    document := ((b.document.bare.add (Content.ofToken t).bare).1.setRoot t.kind id).1,
    frames := [{ block := id, kind := t.kind, phase := .keyword }] } : Builder)) hid.symm

private theorem bare_openNested (b : Builder) (f : Frame) (outer : List Frame) (t : Token) :
    (b.openNested f outer t).bare = b.bare.openNested f outer t.bare := by
  obtain ⟨hadd, hid⟩ := Document.bare_add b.document (.ofToken t)
  simp only [openNested, bare, Document.bare_append, hadd]
  exact congrArg (fun id => ({ b.bare with
    document := (b.document.bare.add (Content.ofToken t).bare).1.append f.block id,
    frames := { block := id, kind := t.kind, phase := .keyword } ::
      { f with phase := .body true } :: outer } : Builder)) hid.symm

private theorem bare_missIndent (b : Builder) (f : Frame) (outer : List Frame) (t : Token)
    (message : String) :
    (b.missIndent f outer t message).bare = b.bare.missIndent f outer t.bare message := by
  unfold missIndent
  rw [← bare_report, Token.kind_bare]
  split <;> rfl

private theorem bare_takeTop (b : Builder) (t : Token) :
    (b.takeTop t).bare = b.bare.takeTop t.bare := by
  unfold takeTop
  rw [Token.kind_bare, Token.text_bare]
  split
  · rw [bare_openSection, show b.bare.document = b.document.bare from rfl, Document.root?_bare]
    split
    · rw [bare_report]
    · rfl
  · split
    · rfl
    · exact bare_report b t _

private theorem bare_takeBody (b : Builder) (f : Frame) (outer : List Frame) (nested : Bool)
    (t : Token) :
    (b.takeBody f outer nested t).bare = b.bare.takeBody f outer nested t.bare := by
  unfold takeBody
  rw [Token.kind_bare, Token.text_bare]
  split
  · split
    · exact bare_report b t _
    · exact bare_addBelow b f t
  · split
    · exact bare_openNested b f outer t
    · split
      · rfl
      · exact bare_report b t _

/-- A token is taken the same before and after places are forgotten. -/
theorem bare_take (b : Builder) (t : Token) : (b.take t).bare = b.bare.take t.bare := by
  unfold take
  rw [show b.bare.frames = b.frames from rfl, Token.kind_bare]
  split
  · exact bare_takeTop b t
  · next f outer _ =>
    split
    · split
      · rw [← bare_addBelow]
        rfl
      · split
        · rfl
        · exact bare_missIndent b f outer t _
    · split
      · rfl
      · exact bare_missIndent b f outer t _
    · exact bare_takeBody b f outer _ t

private theorem bare_foldl_event (es : List Event) (b : Builder) :
    (es.foldl event b).bare = (es.map Event.bare).foldl event b.bare := by
  induction es generalizing b with
  | nil => rfl
  | cons e es ih =>
    rw [List.foldl_cons, ih, List.map_cons, List.foldl_cons]
    cases e with
    | token t => rw [event, bare_take]; rfl
    | problem d => rw [event, bare_note]; rfl

end Builder

/-! ### Results -/

/-- A result without places. -/
def bareResult : Except (List Diagnostic) Document → Except (List Diagnostic) Document
  | .ok d => .ok d.bare
  | .error problems => .error (problems.map Diagnostic.bare)

private theorem Builder.bare_result (b : Builder) : bareResult b.result = b.bare.result := by
  unfold result
  rw [show b.bare.problems = b.problems.map Diagnostic.bare from rfl, List.isEmpty_map]
  split <;> rfl

/-- Events that differ only in places are built to results that differ only in places. -/
theorem Builder.bare_build (es : List Event) (outcome : Stream.Outcome) :
    bareResult (build es outcome) = build (es.map Event.bare) outcome.bare := by
  have hempty : ({} : Builder).bare = {} := by simp [bare, Document.bare]
  have hfold : (es.foldl event {}).bare = (es.map Event.bare).foldl event {} := by
    rw [bare_foldl_event, hempty]
  cases outcome with
  | finished ending =>
    have hclose (b : Builder) : (b.close ending).bare = b.bare.close ending.bare := by
      rw [close, close, ← bare_take]
      rfl
    simp only [build, Stream.Outcome.bare, bare_result, hclose, hfold]
  | failed d => simp only [build, Stream.Outcome.bare, bare_result, bare_note, hfold]

/-! ### Joined lines -/

namespace Document

/-- The state of a walk without places. -/
def Joining.bare (j : Joining) : Joining := { j with document := j.document.bare }

private theorem bare_start (j : Joining) (child : NodeId) (form : TextForm) (region : Region) :
    (j.start child form region).bare = j.bare.start child form region := by
  simp only [Joining.start, Joining.bare]
  rw [bare_modify]
  exact fun _ => rfl

private theorem bare_join (j : Joining) (target : NodeId) (line : String) :
    (j.join target line).bare = j.bare.join target line := by
  simp only [Joining.join, Joining.bare]
  rw [bare_modify]
  exact fun _ => rfl

private theorem bare_step (j : Joining) (child : NodeId) :
    (j.step child).bare = j.bare.step child := by
  have hnode : j.bare.document.node child = (j.document.node child).bare := node_bare _ _
  have htext : ((j.document.node child).bare).isText = (j.document.node child).isText := rfl
  have hform : ((j.document.node child).bare).form = (j.document.node child).form := rfl
  have hvalue : ((j.document.node child).bare).value = (j.document.node child).value := rfl
  have hregion : j.bare.region = j.region := rfl
  unfold Joining.step
  simp only [hnode, htext, hform, hvalue, hregion]
  split
  · rfl
  · split
    · rw [← bare_join]
      split <;> rfl
    · split
      · rfl
      · split
        · exact bare_start j child _ _
        · split
          · exact bare_join j _ _
          · exact bare_start j child _ _

private theorem bare_foldl_step (children : List NodeId) (j : Joining) :
    (children.foldl Joining.step j).bare = children.foldl Joining.step j.bare := by
  induction children generalizing j with
  | nil => rfl
  | cons child children ih => rw [List.foldl_cons, ih, bare_step, List.foldl_cons]

private theorem bare_parents (parent : Option NodeId) (ids : List NodeId) (d : Document) :
    (ids.foldl (fun d id => d.modify id fun n => { n with parent }) d).bare =
      ids.foldl (fun d id => d.modify id fun n => { n with parent }) d.bare := by
  induction ids generalizing d with
  | nil => rfl
  | cons id ids ih =>
    rw [List.foldl_cons, ih, bare_modify, List.foldl_cons]
    exact fun _ => rfl

private theorem bare_replaceChildren (d : Document) (parent : NodeId) (children : List NodeId) :
    (d.replaceChildren parent children).bare = d.bare.replaceChildren parent children := by
  simp only [replaceChildren]
  rw [bare_modify, bare_parents, bare_parents, node_bare]
  · rfl
  · exact fun _ => rfl

private theorem bare_joinChildren (d : Document) (id : NodeId) (children : List NodeId) :
    (d.joinChildren id children).bare = d.bare.joinChildren id children := by
  have hfold := bare_foldl_step children { document := d }
  have hdocument := congrArg Joining.document hfold
  have hkept := congrArg Joining.kept hfold
  simp only [joinChildren]
  rw [bare_replaceChildren]
  exact congrArg₂ (fun d kept => Document.replaceChildren d id kept) hdocument hkept

private theorem bare_joinLinesTo (depth : Nat) (d : Document) (id : NodeId) :
    (joinLinesTo depth d id).bare = joinLinesTo depth d.bare id := by
  induction depth generalizing d id with
  | zero => rfl
  | succ depth ih =>
    have hbelow (children : List NodeId) (d : Document) :
        (children.foldl
          (fun d child => if (d.node child).isText then d else joinLinesTo depth d child) d).bare =
        children.foldl
          (fun d child => if (d.node child).isText then d else joinLinesTo depth d child)
          d.bare := by
      induction children generalizing d with
      | nil => rfl
      | cons child children ihc =>
        have htext : (d.bare.node child).isText = (d.node child).isText := by
          rw [node_bare]
          rfl
        rw [List.foldl_cons, ihc, List.foldl_cons, htext]
        split
        · rfl
        · rw [ih]
    rw [joinLinesTo, joinLinesTo, bare_joinChildren, hbelow, node_bare]
    rfl

/-- Lines are joined the same before and after places are forgotten. -/
theorem bare_joinLines (d : Document) : d.joinLines.bare = d.bare.joinLines := by
  have hroots : d.bare.roots = d.roots := by
    rw [roots, roots]
    exact List.filterMap_congr fun s _ => root?_bare d s
  have hfold (ids : List NodeId) (d : Document) :
      (ids.foldl joinLinesBelow d).bare = ids.foldl joinLinesBelow d.bare := by
    induction ids generalizing d with
    | nil => rfl
    | cons id ids ih =>
      rw [List.foldl_cons, ih, joinLinesBelow, bare_joinLinesTo, List.foldl_cons, joinLinesBelow,
        size_bare]
  rw [joinLines, joinLines, hroots, hfold]

end Document

namespace Compile

/-- Finishing a document commutes with leaving its places out. -/
theorem bareResult_finish (options : ReadOptions) (x : Except (List Diagnostic) Document) :
    bareResult (x.map (finish options)) = (bareResult x).map (finish options) := by
  cases x with
  | error problems => rfl
  | ok d =>
    simp only [Except.map, bareResult, finish]
    split
    · rw [Document.bare_joinLines]
    · rfl

/-- Two results are the same up to places: documents whose sections are trees of the same kinds,
values, forms and children, or problems with the same messages in the same order. -/
def SameUpToPlaces : Except (List Diagnostic) Document → Except (List Diagnostic) Document → Prop
  | .ok d, .ok e => ∀ s, (d.sectionTree? s).map Tree.bare = (e.sectionTree? s).map Tree.bare
  | .error ps, .error qs => ps.map (·.message) = qs.map (·.message)
  | _, _ => False

/-- Results that are the same without places are the same up to places. -/
theorem sameUpToPlaces_of_bareResult {x y : Except (List Diagnostic) Document}
    (h : bareResult x = bareResult y) : SameUpToPlaces x y := by
  match x, y, h with
  | .ok d, .ok e, h =>
    intro s
    rw [← Document.sectionTree?_bare, ← Document.sectionTree?_bare, Except.ok.inj h]
  | .error ps, .error qs, h =>
    have hmessages := congrArg (List.map (·.message)) (Except.error.inj h)
    rw [List.map_map, List.map_map] at hmessages
    exact hmessages
  | .ok _, .error _, h => cases h
  | .error _, .ok _, h => cases h

end Compile

end PromptOutline
