import PromptOutline.Proofs.Embedded
import PromptOutline.Proofs.JoinedLinks
import PromptOutline.Proofs.SnapshotReading
import PromptOutline.Render.Registry

/-!
# Documents told apart by their JSON

A snapshot shows the name of a block in place of its value, and a form for texts only. On documents
that were read nothing is lost by that: blocks have no value of their own, and only texts get
another form than that of a line. So documents that were read and have the same JSON have the same
sections and the same contents.
-/

namespace PromptOutline

/-! ### Contents of documents that were read -/

/-- What a snapshot shows in full: a block has no value, and only a text has a form. -/
structure Content.IsPlain (c : Content) : Prop where
  value : c.kind.isBlock = true → c.value = ""
  form : c.isText = false → c.form = .line

private theorem Content.isPlain_ofToken (t : Token) : (Content.ofToken t).IsPlain :=
  ⟨fun h => if_pos h, fun _ => rfl⟩

namespace Document

variable {d : Document}

/-- Every node is shown in full. -/
def IsPlain (d : Document) : Prop := ∀ i, (d.node i).toContent.IsPlain

private theorem isPlain_of_tokens {ts : List Token}
    (h : d.nodes.toList.map (·.toContent) = ts.map Content.ofToken) : d.IsPlain := by
  intro i
  cases ht : ts[i]? with
  | some t =>
    rw [content_of_tokens h ht]
    exact Content.isPlain_ofToken t
  | none =>
    have hlength := congrArg List.length h
    simp only [List.length_map, Array.length_toList] at hlength
    have hle : d.size ≤ i := by
      rw [size, hlength]
      exact List.getElem?_eq_none_iff.mp ht
    rw [node_of_size_le hle]
    exact ⟨fun _ => rfl, fun _ => rfl⟩

private theorem kind_modify (i : NodeId) {f : Node → Node} (hf : ∀ n, (f n).kind = n.kind)
    (k : NodeId) :
    ((d.modify i f).node k).kind = (d.node k).kind := by
  by_cases hk : k = i
  · subst hk
    by_cases hlt : k < d.size
    · rw [node_modify_self hlt, hf]
    · have hle := Nat.le_of_not_lt hlt
      rw [node_of_size_le hle, node_of_size_le (by rwa [(Touches.modify d k f).size])]
  · rw [node_modify_of_ne hk]

namespace IsPlain

private theorem modify (h : d.IsPlain) {i : NodeId} {f : Node → Node}
    (hf : (f (d.node i)).toContent.IsPlain) : (d.modify i f).IsPlain := by
  intro k
  by_cases hk : k = i
  · subst hk
    by_cases hlt : k < d.size
    · rw [node_modify_self hlt]
      exact hf
    · rw [node_of_size_le (by rw [(Touches.modify d k f).size]; exact Nat.le_of_not_lt hlt)]
      exact ⟨fun _ => rfl, fun _ => rfl⟩
  · rw [node_modify_of_ne hk]
    exact h k

/-- A text may have any value and any form. -/
theorem modify_text (h : d.IsPlain) {i : NodeId} (htext : (d.node i).kind = .text)
    {f : Node → Node} (hf : (f (d.node i)).kind = (d.node i).kind) : (d.modify i f).IsPlain := by
  refine h.modify ⟨fun hblock => ?_, fun hother => ?_⟩
  · rw [hf, htext] at hblock
    cases hblock
  · rw [Content.isText, hf, htext] at hother
    cases hother

private theorem foldl {op : Document → NodeId → Document}
    (hop : ∀ d i, IsPlain d → (op d i).IsPlain)
    (ids : List NodeId) (h : d.IsPlain) : (ids.foldl op d).IsPlain := by
  induction ids generalizing d with
  | nil => exact h
  | cons i ids ih => exact ih (hop d i h)

private theorem replaceChildren (h : d.IsPlain) (id : NodeId) (children : List NodeId) :
    (d.replaceChildren id children).IsPlain := by
  have hparent (parent : Option NodeId) (ids : List NodeId) {e : Document} (he : e.IsPlain) :
      (ids.foldl (fun d i => d.modify i fun n => { n with parent }) e).IsPlain :=
    foldl (fun d i hd => hd.modify (hd i)) ids he
  have hclaimed := hparent (some id) children (hparent none (d.node id).children h)
  exact hclaimed.modify (hclaimed id)

/-- A walk over children changes texts only: the node that takes the next line is one. -/
structure Walks (j : Joining) : Prop where
  plain : j.document.IsPlain
  target : ∀ i, j.region = .paragraph i ∨ j.region = .fenced i → (j.document.node i).kind = .text

private theorem Walks.step {j : Joining} (h : Walks j) (child : NodeId) : Walks (j.step child) := by
  have hclosed (i : NodeId) (hi : Region.closed = .paragraph i ∨ Region.closed = .fenced i) :
      (j.document.node i).kind = .text := by
    rcases hi with hi | hi <;> cases hi
  have hstep := j.stepped_step child
  generalize j.step child = j' at hstep
  cases hstep with
  | kept => exact ⟨h.plain, hclosed⟩
  | dropped => exact ⟨h.plain, hclosed⟩
  | @started form region htext hvalue hform hregion _ =>
    refine ⟨h.plain.modify_text htext rfl, fun i hi => ?_⟩
    obtain rfl : i = child := by
      rcases hregion with rfl | rfl <;> rcases hi with hi | hi <;> cases hi <;> rfl
    exact (kind_modify i (f := fun n => { n with form }) (fun _ => rfl) i).trans htext
  | @joined target region htext htarget hregion =>
    refine ⟨h.plain.modify_text (h.target target htarget) rfl, fun i hi => ?_⟩
    refine (kind_modify target
      (f := fun n => { n with value := n.value ++ "\n" ++ (j.document.node child).value })
      (fun _ => rfl) i).trans ?_
    rcases hregion with rfl | rfl
    · exact h.target i hi
    · exact hclosed i hi

private theorem joinChildren (h : d.IsPlain) (id : NodeId) (children : List NodeId) :
    (d.joinChildren id children).IsPlain := by
  have hwalks : Walks (children.foldl Joining.step { document := d }) := by
    have hstart : Walks { document := d } := ⟨h, fun i hi => by rcases hi with hi | hi <;> cases hi⟩
    generalize ({ document := d } : Joining) = j at hstart
    induction children generalizing j with
    | nil => exact hstart
    | cons child children ih => exact ih _ (hstart.step child)
  exact hwalks.plain.replaceChildren id _

private theorem joinLinesTo (depth : Nat) (h : d.IsPlain) (id : NodeId) :
    (joinLinesTo depth d id).IsPlain := by
  induction depth generalizing d id with
  | zero => exact h
  | succ depth ih =>
    refine joinChildren (foldl (fun e i he => ?_) _ h) _ _
    split
    · exact he
    · exact ih he i

private theorem joinLines (h : d.IsPlain) : d.joinLines.IsPlain :=
  foldl (fun e i he => he.joinLinesTo e.size i) d.roots h

end IsPlain

/-! ### Trees and their snapshots -/

end Document

namespace Snapshot

/-- Contents that are shown in full are told apart by what a snapshot shows of them. -/
theorem content_of_ofTree {c c' : Content} {ts ts' : List Tree} (hc : c.IsPlain) (hc' : c'.IsPlain)
    (h : ofTree (.node c ts) = ofTree (.node c' ts')) : c = c' ∧ ofTrees ts = ofTrees ts' := by
  rw [ofTree, ofTree, Snapshot.node.injEq] at h
  obtain ⟨hkind, hlabel, hline, hcolumn, hform, hbelow⟩ := h
  have hsame : c.kind = c'.kind := by
    have hnames := congrArg TokenKind.ofName? hkind
    rwa [TokenKind.ofName?_name, TokenKind.ofName?_name, Option.some.injEq] at hnames
  have hvalue : c.value = c'.value := by
    by_cases hblock : c.kind.isBlock = true
    · rw [hc.value hblock, hc'.value (hsame ▸ hblock)]
    · rwa [if_neg hblock, if_neg (hsame ▸ hblock)] at hlabel
  have hforms : c.form = c'.form := by
    by_cases htext : c.isText = true
    · have htext' : c'.isText = true := by rwa [Content.isText, ← hsame]
      simpa [htext, htext'] using hform
    · have htext' : c'.isText = false := by
        rw [Content.isText, ← hsame]
        simpa [Content.isText] using htext
      rw [hc.form (by simpa using htext), hc'.form htext']
  refine ⟨?_, hbelow⟩
  obtain ⟨kind, value, line, column, form⟩ := c
  simp only at hsame hvalue hline hcolumn hforms
  subst hsame hvalue hline hcolumn hforms
  rfl

end Snapshot

namespace Document

open Snapshot

variable {d e : Document}

private theorem treeTo_eq (d : Document) (depth : Nat) (i : NodeId) :
    ∃ ids : List NodeId,
      d.treeTo depth i = .node (d.node i).toContent (ids.map (d.treeTo (depth - 1))) := by
  cases depth with
  | zero => exact ⟨[], rfl⟩
  | succ depth => exact ⟨(d.node i).children, rfl⟩

private theorem map_of_ofTrees {f g : NodeId → Tree}
    (hfg : ∀ i k, ofTree (f i) = ofTree (g k) → f i = g k) {ids ids' : List NodeId}
    (h : ofTrees (ids.map f) = ofTrees (ids'.map g)) : ids.map f = ids'.map g := by
  induction ids generalizing ids' with
  | nil =>
    cases ids' with
    | nil => rfl
    | cons k ids' => cases h
  | cons i ids ih =>
    cases ids' with
    | nil => cases h
    | cons k ids' =>
      rw [List.map_cons, List.map_cons, ofTrees, ofTrees, List.cons.injEq] at h
      rw [List.map_cons, List.map_cons, hfg i k h.1, ih h.2]

/-- Trees of documents that are shown in full are told apart by their snapshots. -/
theorem treeTo_of_ofTree (hd : d.IsPlain) (he : e.IsPlain) (depth depth' : Nat) (i k : NodeId)
    (h : ofTree (d.treeTo depth i) = ofTree (e.treeTo depth' k)) :
    d.treeTo depth i = e.treeTo depth' k := by
  induction depth generalizing depth' i k with
  | zero =>
    obtain ⟨ids', hids'⟩ := e.treeTo_eq depth' k
    rw [hids'] at h ⊢
    obtain ⟨hcontent, hbelow⟩ := content_of_ofTree (hd i) (he k) h
    cases ids' with
    | nil => rw [treeTo, hcontent]; rfl
    | cons _ _ => cases hbelow
  | succ depth ih =>
    obtain ⟨ids', hids'⟩ := e.treeTo_eq depth' k
    rw [hids'] at h ⊢
    obtain ⟨hcontent, hbelow⟩ := content_of_ofTree (hd i) (he k) h
    rw [treeTo, hcontent, map_of_ofTrees (fun i k => ih (depth' - 1) i k) hbelow]

/-- Documents that are shown in full and have the same snapshot have the same sections and the same
contents. -/
theorem listing_of_ofDocument (hd : d.IsPlain) (he : e.IsPlain)
    (h : Sections.ofDocument d = Sections.ofDocument e) :
    (∀ s, (d.root? s).isSome = (e.root? s).isSome) ∧ d.listing = e.listing := by
  have hsection (s : Section) : (d.root? s).map (fun i => ofTree (d.tree i)) =
      (e.root? s).map fun i => ofTree (e.tree i) := by
    rw [Sections.ofDocument, Sections.ofDocument, Sections.mk.injEq] at h
    cases s with
    | role => exact h.1
    | context => exact h.2.1
    | action => exact h.2.2
  have htree (s : Section) : (d.root? s).map d.tree = (e.root? s).map e.tree := by
    have hs := hsection s
    cases hroot : d.root? s with
    | none =>
      rw [hroot] at hs
      cases hroot' : e.root? s with
      | none => rfl
      | some k => rw [hroot'] at hs; cases hs
    | some i =>
      rw [hroot] at hs
      cases hroot' : e.root? s with
      | none => rw [hroot'] at hs; cases hs
      | some k =>
        rw [hroot'] at hs
        exact congrArg some (treeTo_of_ofTree hd he _ _ i k (Option.some.inj hs))
  constructor
  · intro s
    simpa using congrArg Option.isSome (htree s)
  · have htrees : d.trees = e.trees := by
      rw [trees, trees, roots, roots, List.map_filterMap, List.map_filterMap]
      exact List.filterMap_congr fun s _ => htree s
    rw [listing, listing, htrees]

end Document

/-- A document that was read is shown in full. -/
theorem Origin.isPlain_of_read {w : Workspace} {options : ReadOptions} {origin : Origin}
    {d : Document} (h : origin.read w options = .ok d) : d.IsPlain := by
  rw [read_eq] at h
  cases hparse : origin.parse w options.width options.searchPaths with
  | error problems => rw [hparse] at h; cases h
  | ok raw =>
    have hraw : raw.IsPlain := by
      rw [parse_eq] at hparse
      cases hstream : origin.stream w options.width options.searchPaths with
      | error problems => rw [hstream] at hparse; cases hparse
      | ok s =>
        rw [hstream] at hparse
        exact Document.isPlain_of_tokens
          (Compile.contents_of_readStream (kind_of_stream hstream) hparse)
    rw [hparse] at h
    cases h
    unfold Compile.finish
    split
    · exact hraw.joinLines
    · exact hraw

/-- JSON says everything. Sections are read back from either form of their JSON, as long as their
numbers have 64 bits and they are not nested too deeply; tokens are read back if their numbers have
64 bits; and documents that were read and are written the same have the same sections and the same
contents. -/
theorem Format.json_says_everything :
    (∀ s : Sections, (∀ t ∈ s.present, t.isBounded = true) →
      s.toJson.nesting ≤ Json.nestingLimit →
      Sections.parse? (s.toJson.pretty 0) = some s ∧ Sections.parse? s.toJson.compact = some s) ∧
    (∀ ts : List Token, (∀ t ∈ ts, t.line < UInt64.size ∧ t.column < UInt64.size) →
      Token.parseAll? (Token.renderAll ts) = some ts) ∧
    ∀ {w w' : Workspace} {options options' : ReadOptions} {origin origin' : Origin}
      {d d' : Document}, origin.read w options = .ok d → origin'.read w' options' = .ok d' →
      ∀ text, json.write d = .ok text → json.write d' = .ok text →
        (∀ s, (d.root? s).isSome = (d'.root? s).isSome) ∧ d.listing = d'.listing := by
  refine ⟨fun s hbounded hnesting => ?_, fun ts hts => Token.parseAll?_renderAll hts, ?_⟩
  · have hread := Sections.ofJson?_toJson hbounded hnesting
    constructor
    · rw [Sections.parse?, Json.parse?_pretty s.isWhole_toJson 0]
      exact hread
    · rw [Sections.parse?, Json.parse?_compact s.isWhole_toJson]
      exact hread
  · intro w w' options options' origin origin' d d' hd hd' text hwrite hwrite'
    have htext : (Sections.ofDocument d).toJson.pretty 0 =
        (Sections.ofDocument d').toJson.pretty 0 := by
      rw [Except.ok.inj hwrite, Except.ok.inj hwrite']
    have hparse := congrArg Json.parse? htext
    rw [Json.parse?_pretty (Sections.isWhole_toJson _),
      Json.parse?_pretty (Sections.isWhole_toJson _),
      Option.some.injEq] at hparse
    exact Document.listing_of_ofDocument (Origin.isPlain_of_read hd) (Origin.isPlain_of_read hd')
      (Sections.toJson_injective hparse)

/-! ### A note with and without a blank line -/

/-- A section whose numbers and texts are at the edge of what JSON can hold here. -/
def quotedSections : Sections where
  role := some (.node "Role" "a \"q\" \\ \x01\x1f\n" 1 (UInt64.size - 1) none
    [.node "Text" "é\t" 2 5 (some .fenced) []])

private theorem read_note (source text : String)
    (h : ((Round.after {} 4 12 (Origin.start {} 4 [] (.text "note" source))).document?.map fun d =>
      (Sections.ofDocument d.joinLines).toJson.pretty 0) = some text) :
    ∃ d, Origin.read {} {} (.text "note" source) = .ok d ∧ Format.json.write d = .ok text := by
  obtain ⟨raw, hraw, htext⟩ := Option.map_eq_some_iff.mp h
  refine ⟨raw.joinLines, ?_, congrArg Except.ok htext⟩
  rw [Origin.read_eq, Origin.parse_of_ended (Round.ended_of_document? hraw)]
  rfl

/-- The sections are read back, and so is the mark for the end of a file. A note with a blank line
at its end is written as the same note without it, and they hold the same. -/
theorem Format.json_says_everything_note :
    quotedSections.toJson.nesting = 4 ∧
      Sections.parse? (quotedSections.toJson.pretty 0) = some quotedSections ∧
      Sections.parse? quotedSections.toJson.compact = some quotedSections ∧
      Token.parseAll? (Token.renderAll [Token.endOfFile "\x7f" 3]) =
        some [Token.endOfFile "\x7f" 3] ∧
      ∃ d d' text, Origin.read {} {} (.text "note" "Action:\n    a\n") = .ok d ∧
        Origin.read {} {} (.text "note" "Action:\n    a\n\n") = .ok d' ∧
        json.write d = .ok text ∧ json.write d' = .ok text ∧
        (∀ s, (d.root? s).isSome = (d'.root? s).isSome) ∧ d.listing = d'.listing := by
  obtain ⟨hsections, htokens, hdocuments⟩ := json_says_everything
  have hnesting : quotedSections.toJson.nesting = 4 := by decide +kernel
  have hbounded : ∀ t ∈ quotedSections.present, t.isBounded = true := by
    intro t ht
    obtain rfl : t = _ := List.mem_singleton.mp ht
    decide +kernel
  obtain ⟨hpretty, hcompact⟩ := hsections quotedSections hbounded (by rw [hnesting]; decide)
  obtain ⟨text, htext⟩ : ∃ text, text = ((Round.after {} 4 12
      (Origin.start {} 4 [] (.text "note" "Action:\n    a\n"))).document?.map fun d =>
        (Sections.ofDocument d.joinLines).toJson.pretty 0).getD "" := ⟨_, rfl⟩
  obtain ⟨d, hd, hwrite⟩ := read_note "Action:\n    a\n" text (by
    rw [htext]; decide +kernel)
  obtain ⟨d', hd', hwrite'⟩ := read_note "Action:\n    a\n\n" text (by
    rw [htext]; decide +kernel)
  exact ⟨hnesting, hpretty, hcompact,
    htokens _ (fun t ht => by rw [List.mem_singleton.mp ht]; decide), d, d', text, hd, hd', hwrite,
    hwrite', hdocuments hd hd' text hwrite hwrite'⟩

end PromptOutline
