import TypeFlow.Flow.Graph
import TypeFlow.Proofs.Descent
import TypeFlow.Proofs.ListingLines
import TypeFlow.Proofs.Reachability

/-! The labels of a drawing. Whatever a function, its blocks and its values are called, each label
goes on to its own closing quote, and what it shows can be read off it byte by byte. -/

namespace TypeFlow

namespace Drawing

open Text

/-- What a label shows at one place. -/
inductive Glyph where
  | byte (c : UInt8)
  | lineEnd
  deriving DecidableEq

def Glyph.ofEscape? (c : UInt8) : Option Glyph :=
  if c = ascii '\\' ∨ c = ascii '"' then some (.byte c)
  else if c = ascii 'l' then some .lineEnd
  else none

/-- What the rest of a label shows; `pending` if the byte before is a backslash that goes with the
next byte. -/
def decodeFrom? (pending : Bool) : Text → Option (List Glyph)
  | [] => if pending then none else some []
  | c :: rest =>
    if pending then
      (Glyph.ofEscape? c).bind fun glyph => (decodeFrom? false rest).map (glyph :: ·)
    else if c = ascii '"' then none
    else if c = ascii '\\' then decodeFrom? true rest
    else (decodeFrom? false rest).map (.byte c :: ·)

def decode? (label : Text) : Option (List Glyph) := decodeFrom? false label

theorem decode?_cons_slash {c : UInt8} {glyph : Glyph} (h : Glyph.ofEscape? c = some glyph)
    (rest : Text) : decode? (ascii '\\' :: c :: rest) = (decode? rest).map (glyph :: ·) := by
  have hslash : ascii '\\' ≠ ascii '"' := by decide
  simp [decode?, decodeFrom?, hslash, h]

theorem decode?_cons {c : UInt8} (hs : c ≠ ascii '\\') (hq : c ≠ ascii '"') (rest : Text) :
    decode? (c :: rest) = (decode? rest).map (.byte c :: ·) := by
  simp [decode?, decodeFrom?, hs, hq]

theorem decode?_escaped (t rest : Text) :
    decode? (escaped t ++ rest) = (decode? rest).map (t.map .byte ++ ·) := by
  induction t with
  | nil => simp [escaped]
  | cons c t ih =>
    have hcons : decode? (escaped (c :: t) ++ rest) =
        (decode? (escaped t ++ rest)).map (.byte c :: ·) := by
      unfold escaped
      rw [List.flatMap_cons, List.append_assoc]
      by_cases hs : c = ascii '\\'
      · subst hs
        exact decode?_cons_slash (by decide) _
      · by_cases hq : c = ascii '"'
        · subst hq
          exact decode?_cons_slash (by decide) _
        · rw [if_neg hs, if_neg hq]
          exact decode?_cons hs hq _
    rw [hcons, ih, Option.map_map]
    rfl

/-- How many backslashes a text ends with. -/
def slashes (t : Text) : Nat := (t.reverse.takeWhile (· == ascii '\\')).length

theorem slashes_concat (t : Text) (c : UInt8) :
    slashes (t ++ [c]) = if c = ascii '\\' then slashes t + 1 else 0 := by
  by_cases hc : c = ascii '\\' <;> simp [slashes, hc]

/-- Behind an opening quote and the label stands the first quote that does not follow an odd number
of backslashes. -/
structure Closes (label : Text) : Prop where
  even : slashes label % 2 = 0
  odd : ∀ before after, label = before ++ ascii '"' :: after → slashes before % 2 = 1

/-- One byte of a label. A quote goes with a backslash, and a backslash with the next byte unless it
goes with the one before. -/
theorem decodeFrom?_cons {pending : Bool} {c : UInt8} {rest : Text} {glyphs : List Glyph}
    (h : decodeFrom? pending (c :: rest) = some glyphs) :
    (c = ascii '"' → pending = true) ∧
      ∃ glyphs, decodeFrom? (!pending && decide (c = ascii '\\')) rest = some glyphs := by
  have hslash : ascii '\\' ≠ ascii '"' := by decide
  unfold decodeFrom? at h
  cases pending with
  | true =>
    obtain ⟨glyph, -, hrest⟩ := Option.bind_eq_some_iff.mp h
    obtain ⟨glyphs, hglyphs, -⟩ := Option.map_eq_some_iff.mp hrest
    exact ⟨fun _ => rfl, glyphs, hglyphs⟩
  | false =>
    by_cases hq : c = ascii '"'
    · simp [hq] at h
    · refine ⟨fun hc => absurd hc hq, ?_⟩
      by_cases hs : c = ascii '\\'
      · exact ⟨glyphs, by simpa [hq, hs, hslash] using h⟩
      · simp only [Bool.false_eq_true, if_false, if_neg hq, if_neg hs] at h
        obtain ⟨glyphs, hglyphs, -⟩ := Option.map_eq_some_iff.mp h
        exact ⟨glyphs, by simpa [hs] using hglyphs⟩

theorem slashes_of_decodeFrom? {pending : Bool} {read label : Text} {glyphs : List Glyph}
    (h : decodeFrom? pending label = some glyphs) (hread : slashes read % 2 = pending.toNat) :
    slashes (read ++ label) % 2 = 0 ∧
      ∀ before after, label = before ++ ascii '"' :: after → slashes (read ++ before) % 2 = 1 := by
  -- A backslash waits for the next byte exactly if it makes the number of backslashes odd.
  induction label generalizing pending read glyphs with
  | nil =>
    cases pending with
    | true => simp [decodeFrom?] at h
    | false => simpa using hread
  | cons c label ih =>
    obtain ⟨hquote, glyphs, hrest⟩ := decodeFrom?_cons h
    have hnext : slashes (read ++ [c]) % 2 = (!pending && decide (c = ascii '\\')).toNat := by
      rw [slashes_concat]
      by_cases hc : c = ascii '\\' <;> cases pending <;> simp [hc] at hread ⊢ <;> omega
    obtain ⟨heven, hodd⟩ := ih hrest hnext
    rw [List.append_assoc, List.singleton_append] at heven
    refine ⟨heven, fun before after hlabel => ?_⟩
    cases before with
    | nil =>
      obtain ⟨hc, -⟩ := List.cons.inj hlabel
      simpa [hquote hc] using hread
    | cons d before =>
      obtain ⟨rfl, htail⟩ := List.cons.inj hlabel
      simpa using hodd before after htail

theorem closes_of_decode? {label : Text} {glyphs : List Glyph} (h : decode? label = some glyphs) :
    Closes label := by
  obtain ⟨heven, hodd⟩ := @slashes_of_decodeFrom? _ [] _ _ h rfl
  exact ⟨heven, hodd⟩

def glyphs (lines : List Text) : List Glyph := lines.flatMap fun l => l.map .byte ++ [.lineEnd]

def written (lines : List Text) : Text := lines.flatMap fun l => escaped l ++ lineEnd

theorem decode?_written (lines : List Text) : decode? (written lines) = some (glyphs lines) := by
  induction lines with
  | nil => rfl
  | cons l lines ih =>
    have hend : decode? (lineEnd ++ written lines) = some (.lineEnd :: glyphs lines) := by
      rw [← Option.map_some, ← ih]
      exact decode?_cons_slash (by decide) _
    rw [written, List.flatMap_cons, List.append_assoc, decode?_escaped, ← written, hend]
    simp [glyphs]

theorem escaped_append (s t : Text) : escaped (s ++ t) = escaped s ++ escaped t :=
  List.flatMap_append

theorem escaped_eq_self {t : Text} (h : ∀ c ∈ t, c ≠ ascii '\\' ∧ c ≠ ascii '"') :
    escaped t = t := by
  induction t with
  | nil => rfl
  | cons c t ih =>
    obtain ⟨⟨hs, hq⟩, ht⟩ := List.forall_mem_cons.mp h
    rw [← List.singleton_append, escaped_append, ih ht]
    simp [escaped, hs, hq]

/-- A part of a drawing with one label in it. -/
structure Piece where
  before : Text
  label : Text
  after : Text

def Piece.text (p : Piece) : Text :=
  p.before ++ ascii '"' :: (p.label ++ ascii '"' :: p.after)

/-- The label is the only quoted string of the piece. -/
structure Piece.Sealed (p : Piece) : Prop where
  before : ascii '"' ∉ p.before
  label : Closes p.label
  after : ascii '"' ∉ p.after

theorem quote_not_mem_ofInt (x : Int) : ascii '"' ∉ ofInt x := by
  cases x with
  | ofNat n => exact (Number.allDigits_ofNat n).not_mem (by decide)
  | negSucc n =>
    rw [ofInt, List.mem_append, not_or]
    exact ⟨by decide, (Number.allDigits_ofNat (n + 1)).not_mem (by decide)⟩

end Drawing

namespace Fact

/-- The bytes that facts are written with. -/
def isTextByte (c : UInt8) : Bool :=
  Token.isNamePart c || c == Text.ascii '(' || c == Text.ascii ')' || 0x80 ≤ c

theorem isTextByte_ofNat {n : Nat} {c : UInt8} (hc : c ∈ Text.ofNat n) : isTextByte c = true := by
  have hdigit := (Number.allDigits_ofNat n).isDigit hc
  simp [isTextByte, Token.isNamePart, hdigit]

theorem isTextByte_ofString (s : String) (h : (Text.ofString s).all isTextByte = true) :
    ∀ c ∈ Text.ofString s, isTextByte c = true := List.all_eq_true.mp h

theorem isTextByte_type (type : ReprType) : ∀ c ∈ type.text, isTextByte c = true := by
  cases type with
  | unknown code =>
    rw [ReprType.text, List.forall_mem_append, List.forall_mem_append]
    exact ⟨⟨isTextByte_ofString "Type(" (by decide), fun c => isTextByte_ofNat⟩,
      isTextByte_ofString ")" (by decide)⟩
  | _ => exact isTextByte_ofString _ (by decide)

theorem isTextByte_text (f : Fact) : ∀ c ∈ f.text, isTextByte c = true := by
  obtain ⟨kind, flag, type⟩ := f
  cases kind with
  | top => exact isTextByte_ofString "⊤" (by decide)
  | bool => cases flag with
    | false => exact isTextByte_ofString "false" (by decide)
    | true => exact isTextByte_ofString "true" (by decide)
  | type => exact isTextByte_type type
  | bottom => exact isTextByte_ofString "⊥" (by decide)
  | unknown code =>
    rw [text, List.forall_mem_append, List.forall_mem_append]
    exact ⟨⟨isTextByte_ofString "TypeVal(" (by decide), fun c => isTextByte_ofNat⟩,
      isTextByte_ofString ")" (by decide)⟩

theorem escaped_text (f : Fact) : Drawing.escaped f.text = f.text := by
  have hbyte : ∀ c, isTextByte c = true → c ≠ Text.ascii '\\' ∧ c ≠ Text.ascii '"' := by
    apply Number.forall_byte
    decide +kernel
  exact Drawing.escaped_eq_self fun c hc => hbyte c (f.isTextByte_text c hc)

end Fact

theorem Func.Finished.exists_member {fn : Func} (h : fn.Finished) {b : Block} (hb : b ∈ fn.blocks)
    {id : ValueId} (hid : id ∈ b.members) :
    ∃ v, fn.value? id = some v ∧ fn.valueText? v = some (fn.valueText v) := by
  obtain ⟨v, hv⟩ := h.exists_value (members_subset hb hid)
  exact ⟨v, hv, h.valueText?_eq (mem_of_lookup hv)⟩

namespace Solution

open Drawing Text

variable {fn : Func} {s : Solution}

/-- The line of a value in the label of its block: the value as it is listed, with its fact if it
has an output and the block was reached. -/
def Shows (s : Solution) (fn : Func) (b : Block) (id : ValueId) (line : Text) : Prop :=
  ∃ v text, fn.value? id = some v ∧ fn.valueText? v = some text ∧
    if v.op.hasOutput = true ∧ s.isReachable b.id = true then
      ∃ f, s.fact? id = some f ∧ line = text ++ ofString " : " ++ f.text
    else line = text

theorem exists_shows (h : fn.Finished) (hlen : s.facts.length = fn.values.length) {b : Block}
    (hb : b ∈ fn.blocks) {id : ValueId} (hid : id ∈ b.members) :
    ∃ line, s.Shows fn b id line := by
  obtain ⟨v, hv, htext⟩ := h.exists_member hb hid
  obtain ⟨f, hf⟩ := exists_fact hlen hv
  by_cases hshow : v.op.hasOutput = true ∧ s.isReachable b.id = true
  · exact ⟨_, v, _, hv, htext, (if_pos hshow).mpr ⟨f, hf, rfl⟩⟩
  · exact ⟨_, v, _, hv, htext, (if_neg hshow).mpr rfl⟩

theorem Shows.memberLine?_eq {b : Block} {id : ValueId} {line : Text}
    (h : s.Shows fn b id line) : s.memberLine? fn b id = some (escaped line ++ lineEnd) := by
  obtain ⟨v, text, hv, htext, hline⟩ := h
  split at hline
  · next hshow =>
    obtain ⟨f, hf, rfl⟩ := hline
    -- Facts are written as they are, for they hold nothing to escape.
    have hmark : escaped (ofString " : ") = ofString " : " := by decide
    simp [memberLine?, factSuffix?, hv, htext, hshow, hf, escaped_append, f.escaped_text, hmark]
  · next hshow =>
    subst hline
    simp [memberLine?, factSuffix?, hv, htext, hshow]

theorem blockLabel?_eq {b : Block} {line : ValueId → Text}
    (h : ∀ id ∈ b.members, s.Shows fn b id (line id)) :
    s.blockLabel? fn b = some (written ((b.label ++ ofString ":") :: b.members.map line)) := by
  have hcolon : escaped (ofString ":") = ofString ":" := by decide
  have hlines := mapM_eq_pure fun id hid => (h id hid).memberLine?_eq
  rw [blockLabel?, hlines, written, List.flatMap_cons, List.flatMap_map, escaped_append, hcolon]
  rfl

def nodeOf (s : Solution) (b : Block) (lines : List Text) : Piece where
  before := ofString "\tn" ++ ofInt b.id ++ ofString " [label="
  label := written ((b.label ++ ofString ":") :: lines)
  after := (if s.isReachable b.id then [] else ofString ", style=dashed") ++ ofString "];\n"

theorem node?_eq {b : Block} {line : ValueId → Text}
    (h : ∀ id ∈ b.members, s.Shows fn b id (line id)) :
    s.node? fn b = some (s.nodeOf b (b.members.map line)).text := by
  have hopen : ofString " [label=\"" = ofString " [label=" ++ [ascii '"'] := by decide
  have hclose : ofString "\"" = [ascii '"'] := by decide
  rw [node?, blockLabel?_eq h]
  simp [nodeOf, Piece.text, hopen, hclose]

theorem nodeOf_sealed (s : Solution) (b : Block) (lines : List Text) :
    (s.nodeOf b lines).Sealed where
  before := by
    simp only [nodeOf, List.mem_append, not_or]
    exact ⟨⟨by decide, quote_not_mem_ofInt b.id⟩, by decide⟩
  label := closes_of_decode? (decode?_written _)
  after := by
    have hstyle : ascii '"' ∉ if s.isReachable b.id then [] else ofString ", style=dashed" := by
      split <;> decide
    rw [nodeOf, List.mem_append, not_or]
    exact ⟨hstyle, by decide⟩

theorem quote_not_mem_arrow {src : Text} (hsrc : ascii '"' ∉ src) (e : Edge) :
    ascii '"' ∉ s.arrow src e := by
  have hstyle : ascii '"' ∉ if s.isVisited e then [] else ofString " [style=dashed]" := by
    split <;> decide
  simp only [arrow, List.mem_append, not_or]
  exact ⟨⟨⟨⟨⟨by decide, hsrc⟩, by decide⟩, quote_not_mem_ofInt e.dst⟩, hstyle⟩, by decide⟩

theorem quote_not_mem_arrows (b : Block) : ascii '"' ∉ s.arrows b := by
  have hsrc : ascii '"' ∉ ofString "n" ++ ofInt b.id := by
    rw [List.mem_append, not_or]
    exact ⟨by decide, quote_not_mem_ofInt b.id⟩
  simp only [arrows, List.mem_flatten, List.mem_map, not_exists, not_and]
  rintro _ ⟨succ, -, rfl⟩
  exact quote_not_mem_arrow hsrc _

/-- The piece is the node of the block, and its label shows the block as it is listed, with the
facts of its values. -/
structure Pictures (s : Solution) (fn : Func) (b : Block) (p : Piece) : Prop where
  before : p.before = ofString "\tn" ++ ofInt b.id ++ ofString " [label="
  label : ∃ lines, List.Forall₂ (s.Shows fn b) b.members lines ∧
    decode? p.label = some (glyphs ((b.label ++ ofString ":") :: lines))

/-- A drawing falls into the title, the nodes of the blocks in order, and a tail without labels. -/
structure Drawn (s : Solution) (fn : Func) (title : Piece) (nodes : List Piece) (tail : Text) :
    Prop where
  graph : s.graph? fn = some (title.text ++ nodes.flatMap Piece.text ++ tail)
  pieces : ∀ p ∈ title :: nodes, p.Sealed
  heading : title.before = ofString "digraph \x7b\n\tlabel = "
  title : decode? title.label = some (fn.name.map .byte)
  nodes : List.Forall₂ (s.Pictures fn) fn.blocks nodes
  tail : ascii '"' ∉ tail

def titleOf (fn : Func) : Piece where
  before := ofString "digraph \x7b\n\tlabel = "
  label := escaped fn.name
  after := ofString ";\n\tnode [shape=box, fontname=monospace];\n\tentry [shape=point];\n"

theorem decode?_titleOf (fn : Func) : decode? (titleOf fn).label = some (fn.name.map .byte) := by
  have hname := decode?_escaped fn.name []
  rw [List.append_nil] at hname
  rw [titleOf, hname]
  exact congrArg some (List.append_nil _)

theorem titleOf_sealed (fn : Func) : (titleOf fn).Sealed where
  before := by simp only [titleOf]; decide
  label := closes_of_decode? (decode?_titleOf fn)
  after := by simp only [titleOf]; decide

def tailOf (s : Solution) (fn : Func) : Text :=
  s.arrow "entry" ⟨noBlock, fn.entry⟩ ++ (fn.blocks.map s.arrows).flatten ++ ofString "\x7d\n"

theorem graph?_eq {node : Block → Piece}
    (h : ∀ b ∈ fn.blocks, s.node? fn b = some (node b).text) :
    s.graph? fn =
      some ((titleOf fn).text ++ (fn.blocks.map node).flatMap Piece.text ++ s.tailOf fn) := by
  have hopen : ofString "digraph \x7b\n\tlabel = \"" =
      ofString "digraph \x7b\n\tlabel = " ++ [ascii '"'] := by decide
  have hclose : ofString "\";\n\tnode [shape=box, fontname=monospace];\n\tentry [shape=point];\n" =
      ascii '"' :: (titleOf fn).after := by
    simp only [titleOf]
    decide
  rw [graph?, mapM_eq_pure h, List.flatMap_map, List.flatMap_def]
  simp [titleOf, tailOf, Piece.text, hopen, hclose]

theorem exists_drawn (h : fn.Finished) (hlen : s.facts.length = fn.values.length) :
    ∃ title nodes tail, s.Drawn fn title nodes tail := by
  choose! line hline using fun b (hb : b ∈ fn.blocks) id (hid : id ∈ b.members) =>
    exists_shows h hlen hb hid
  refine ⟨titleOf fn, fn.blocks.map fun b => s.nodeOf b (b.members.map (line b)), s.tailOf fn,
    graph?_eq fun b hb => node?_eq (hline b hb), ?_, rfl, decode?_titleOf fn, ?_, ?_⟩
  · exact List.forall_mem_cons.mpr ⟨titleOf_sealed fn,
      List.forall_mem_map.mpr fun b _ => s.nodeOf_sealed b _⟩
  · rw [List.forall₂_map_right_iff, List.forall₂_same]
    intro b hb
    refine ⟨rfl, b.members.map (line b), ?_, decode?_written _⟩
    rw [List.forall₂_map_right_iff, List.forall₂_same]
    exact hline b hb
  · simp only [tailOf, List.mem_append, not_or, List.mem_flatten, List.mem_map, not_exists, not_and]
    refine ⟨⟨quote_not_mem_arrow (by decide) _, ?_⟩, by decide⟩
    rintro _ ⟨b, -, rfl⟩
    exact quote_not_mem_arrows b

end Solution

/-- One block and one value, with names that look like parts of a label. -/
def Func.scrawled : Func :=
  (ofCalls? "say \"hi\\" [.block "\\", .setBlock 0, .emit .loadU8 [.literal ⟨.ptr, 1⟩],
    .setName 0 "x\\l\"];", .ret [.value 0]]).get (by decide +kernel)

theorem Func.scrawled_accepted : scrawled.Accepted :=
  Or.inl (built_of_ofCalls? (Option.some_get _).symm)

namespace Task

/-- Names neither end a label early nor keep it from ending. The drawing of a result falls into
pieces with one label each: the title, which shows the name of the function, and a node for each
block, which shows the block with its φ-nodes and instructions as they are listed, and their facts
where there is something to know. -/
theorem labels_read_back {t : Task} (hfn : t.func.Accepted) {s : State} (hs : t.Returns s) :
    ∃ title nodes tail, s.Drawn t.func title nodes tail := by
  have h := hfn.built.finished
  obtain ⟨n, last, hlast, -, -, rfl⟩ := hs.midway h.wellFormed
  exact Solution.exists_drawn h (hlast.coherent h.wellFormed).facts_length

def scrawled : Task := ⟨.scrawled, {}⟩

/-- The drawing of the function with the odd names has two labels. -/
theorem labels_read_back_scrawled :
    scrawled.func.Accepted ∧ scrawled.Returns (scrawled.analyze 20).state ∧
      (∃ title nodes tail, (scrawled.analyze 20).state.Drawn scrawled.func title nodes tail) ∧
      (scrawled.analyze 20).state.graph? scrawled.func = some (
        Text.ofString "digraph \x7b\n\tlabel = \"say \\\"hi\\\\\";\n" ++
        Text.ofString "\tnode [shape=box, fontname=monospace];\n\tentry [shape=point];\n" ++
        Text.ofString "\tn0 [label=\"\\\\:\\lx\\\\l\\\"]; = load.u8 ptr:0x1 : i32\\l" ++
        Text.ofString "ret x\\\\l\\\"];\\l\"];\n\tentry -> n0;\n\x7d\n") := by
  have hreturns : scrawled.Returns (scrawled.analyze 20).state :=
    returns_of_analyze (by decide +kernel)
  exact ⟨Func.scrawled_accepted, hreturns, labels_read_back Func.scrawled_accepted hreturns,
    by decide +kernel⟩

end Task

end TypeFlow
