import Mathlib.Data.List.TakeWhile
import TypeFlow.Proofs.Numeral
import TypeFlow.Ssa.Source

/-! How a text falls into lines and a line into tokens, and which texts are written so that they
fall into given ones. -/

namespace TypeFlow

namespace Text

theorem splitFrom_append {sep : UInt8} {s : Text} (hs : sep ∉ s) (part rest : Text) :
    splitFrom sep part (s ++ rest) = splitFrom sep (s.reverse ++ part) rest := by
  induction s generalizing part with
  | nil => rfl
  | cons c s ih =>
    simp only [List.mem_cons, not_or] at hs
    simp [splitFrom, Ne.symm hs.1, ih hs.2]

theorem split_cons_sep {sep : UInt8} {s : Text} (hs : sep ∉ s) (rest : Text) :
    split sep (s ++ sep :: rest) = s :: split sep rest := by
  simp [split, splitFrom_append hs, splitFrom]

theorem split_lines {sep : UInt8} {lines : List Text} {last : Text} (h : ∀ l ∈ lines, sep ∉ l)
    (hlast : sep ∉ last) : split sep (lines.flatMap (· ++ [sep]) ++ last) = lines ++ [last] := by
  induction lines with
  | nil => simpa [split, splitFrom] using splitFrom_append hlast [] []
  | cons l lines ih =>
    obtain ⟨hl, hlines⟩ := List.forall_mem_cons.mp h
    rw [List.flatMap_cons, List.append_assoc, List.append_assoc, List.singleton_append,
      split_cons_sep hl, ih hlines]
    rfl

theorem split_append_sep (sep : UInt8) (t rest : Text) :
    split sep (t ++ sep :: rest) = split sep t ++ split sep rest := by
  have hfrom : ∀ part, splitFrom sep part (t ++ sep :: rest) =
      splitFrom sep part t ++ splitFrom sep [] rest := by
    induction t with
    | nil => simp [splitFrom]
    | cons c t ih =>
      intro part
      by_cases hc : c = sep <;> simp [splitFrom, hc, ih]
  exact hfrom []

theorem split_ne_nil (sep : UInt8) (t : Text) : split sep t ≠ [] := by
  have hfrom : ∀ part, splitFrom sep part t ≠ [] := by
    induction t with
    | nil => simp [splitFrom]
    | cons c t ih =>
      intro part
      by_cases hc : c = sep <;> simp [splitFrom, hc, ih]
  exact hfrom []

theorem sep_not_mem_splitFrom {sep : UInt8} {part : Text} (hpart : sep ∉ part) {t s : Text}
    (h : s ∈ splitFrom sep part t) : sep ∉ s := by
  induction t generalizing part with
  | nil =>
    obtain rfl := List.mem_singleton.mp h
    simpa using hpart
  | cons c t ih =>
    unfold splitFrom at h
    split at h
    · rcases List.mem_cons.mp h with rfl | h
      · simpa using hpart
      · exact ih List.not_mem_nil h
    · next hc => exact ih (List.not_mem_cons_of_ne_of_not_mem (Ne.symm hc) hpart) h

theorem cut?_eq_none {sep : UInt8} {s : Text} (h : sep ∉ s) : cut? sep s = none := by
  induction s with
  | nil => rfl
  | cons c s ih =>
    rw [List.mem_cons, not_or] at h
    simp [cut?, Ne.symm h.1, ih h.2]

theorem before_eq_self {sep : UInt8} {t : Text} (ht : sep ∉ t) : before sep t = t := by
  refine List.takeWhile_eq_self_iff.mpr fun c hc => ?_
  simpa using ne_of_mem_of_not_mem hc ht

theorem sep_not_mem_before (sep : UInt8) (t : Text) : sep ∉ before sep t := by
  intro h
  have hne := List.mem_takeWhile_imp h
  simp at hne

theorem before_subset (sep : UInt8) (t : Text) : before sep t ⊆ t :=
  (List.takeWhile_sublist _).subset

theorem dropSuffix?_append (suffix t : Text) : dropSuffix? suffix (t ++ suffix) = some t := by
  have hsuffix : suffix.isSuffixOf (t ++ suffix) = true :=
    List.isSuffixOf_iff_suffix.mpr (List.suffix_append t suffix)
  simp [dropSuffix?, hsuffix]

theorem eq_append_of_dropSuffix? {suffix t s : Text} (h : dropSuffix? suffix t = some s) :
    t = s ++ suffix := by
  unfold dropSuffix? at h
  split at h
  · next hsuffix =>
    obtain ⟨s', rfl⟩ := List.isSuffixOf_iff_suffix.mp hsuffix
    simpa using h
  · cases h

end Text

namespace Token

open Text

/-- The bytes that end a word: blanks, marks, and what ends a line or starts a comment. -/
def isBreak (c : UInt8) : Bool := isBlank c || isMark c || c == ascii '#' || c == ascii '\n'

/-- Bytes of a class that has no break in it are no breaks. -/
theorem isBreak_eq_false {p : UInt8 → Bool} (hp : (ofString " \t\r,[]=#\n").any p = false)
    {c : UInt8} (hc : p c = true) : isBreak c = false := by
  have hbytes : ofString " \t\r,[]=#\n" = [ascii ' ', ascii '\t', ascii '\r', ascii ',', ascii '[',
      ascii ']', ascii '=', ascii '#', ascii '\n'] := by decide
  refine Bool.eq_false_iff.mpr fun hbreak => ?_
  have hmem : c ∈ ofString " \t\r,[]=#\n" := by
    simpa [hbytes, isBreak, isBlank, isMark, or_assoc] using hbreak
  exact List.any_eq_false.mp hp c hmem hc

def Plain (t : Text) : Prop := ∀ c ∈ t, isBreak c = false

-- Decided over the bytes of the text, never over all bytes.
instance (t : Text) : Decidable (Plain t) := List.decidableBAll _ t

theorem Plain.append {t s : Text} (ht : Plain t) (hs : Plain s) : Plain (t ++ s) := by
  intro c hc
  rcases List.mem_append.mp hc with hc | hc
  · exact ht c hc
  · exact hs c hc

/-- A token that is no mark, in a line without comment. -/
structure Word (t : Text) : Prop where
  ne_nil : t ≠ []
  plain : Plain t

theorem Word.not_blank {t : Text} (h : Word t) {c : UInt8} (hc : c ∈ t) : isBlank c = false := by
  have hplain := h.plain c hc
  simp only [isBreak, Bool.or_eq_false_iff] at hplain
  exact hplain.1.1.1

theorem Word.not_mark {t : Text} (h : Word t) {c : UInt8} (hc : c ∈ t) : isMark c = false := by
  have hplain := h.plain c hc
  simp only [isBreak, Bool.or_eq_false_iff] at hplain
  exact hplain.1.1.2

theorem Word.append_plain {t s : Text} (h : Word t) (hs : Plain s) : Word (t ++ s) :=
  ⟨by simp [h.ne_nil], h.plain.append hs⟩

theorem isNamePart_of_isName {t : Text} (ht : isName t = true) {c : UInt8} (hc : c ∈ t) :
    isNamePart c = true := by
  cases t with
  | nil => cases hc
  | cons a t =>
    simp only [isName, Bool.and_eq_true, List.all_eq_true] at ht
    rcases List.mem_cons.mp hc with rfl | hc
    · simp [isNamePart, ht.1.1.1]
    · exact ht.1.1.2 c hc

theorem word_of_isName {t : Text} (h : isName t = true) : Word t := by
  refine ⟨?_, fun c hc => isBreak_eq_false (by decide) (isNamePart_of_isName h hc)⟩
  rintro rfl
  cases h

/-- No literal is taken for a name. -/
theorem not_isName_of_read {t : Text} {lit : Literal} (h : Literal.read t = .ok lit) :
    isName t = false := by
  refine Bool.eq_false_iff.mpr fun hname => ?_
  have hcolon : Text.ascii ':' ∉ t := fun hc =>
    absurd (isNamePart_of_isName hname hc) (by decide)
  have htrue : t ≠ "true" := by
    rintro rfl
    exact absurd hname (by decide)
  have hfalse : t ≠ "false" := by
    rintro rfl
    exact absurd hname (by decide)
  simp [Literal.read, htrue, hfalse, Text.cut?_eq_none hcolon] at h

/-- Where a word may end. -/
def Boundary (rest : Text) : Prop := ∀ c ∈ rest.head?, (isBlank c || isMark c) = true

theorem boundary_nil : Boundary [] := nofun

theorem boundary_cons {c : UInt8} (hc : (isBlank c || isMark c) = true) (rest : Text) :
    Boundary (c :: rest) := fun _ h => Option.some.inj h ▸ hc

theorem Boundary.append {s t : Text} (hs : Boundary s) (ht : Boundary t) : Boundary (s ++ t) := by
  cases s with
  | nil => exact ht
  | cons c s => exact hs

/-- However a line goes on behind the text, it starts with the tokens. -/
def Lexes (t : Text) (tokens : List Text) : Prop :=
  ∀ rest, Boundary rest → split (t ++ rest) = tokens ++ split rest

theorem Lexes.split_eq {t : Text} {tokens : List Text} (h : Lexes t tokens) : split t = tokens := by
  have hnil := h [] boundary_nil
  simpa [split, splitFrom, ofRun] using hnil

theorem lexes_nil : Lexes [] [] := fun _ _ => rfl

theorem Lexes.append {s t : Text} {a b : List Text} (hs : Lexes s a) (ht : Lexes t b)
    (hb : Boundary t) : Lexes (s ++ t) (a ++ b) := by
  intro rest hrest
  rw [List.append_assoc, hs _ (hb.append hrest), ht _ hrest, List.append_assoc]

theorem split_cons_blank {c : UInt8} (hc : isBlank c = true) (rest : Text) :
    split (c :: rest) = split rest := by
  simp [split, splitFrom, hc, ofRun]

theorem split_cons_mark {c : UInt8} (hb : isBlank c = false) (hc : isMark c = true) (rest : Text) :
    split (c :: rest) = [c] :: split rest := by
  simp [split, splitFrom, hb, hc, ofRun]

theorem Lexes.blank {c : UInt8} (hc : isBlank c = true) {t : Text} {tokens : List Text}
    (h : Lexes t tokens) : Lexes (c :: t) tokens := by
  intro rest hrest
  rw [← h rest hrest]
  exact split_cons_blank hc (t ++ rest)

theorem Lexes.mark {c : UInt8} (hb : isBlank c = false) (hc : isMark c = true) {t : Text}
    {tokens : List Text} (h : Lexes t tokens) : Lexes (c :: t) ([c] :: tokens) := by
  intro rest hrest
  rw [List.cons_append, List.cons_append, ← h rest hrest]
  exact split_cons_mark hb hc (t ++ rest)

theorem splitFrom_word {w : Text} (hw : ∀ c ∈ w, isBlank c = false ∧ isMark c = false)
    (run rest : Text) : splitFrom run (w ++ rest) = splitFrom (w.reverse ++ run) rest := by
  induction w generalizing run with
  | nil => rfl
  | cons c w ih =>
    obtain ⟨hb, hm⟩ := hw c List.mem_cons_self
    simp [splitFrom, hb, hm, ih fun a ha => hw a (List.mem_cons_of_mem c ha)]

theorem splitFrom_boundary {run rest : Text} (hrun : run ≠ []) (hrest : Boundary rest) :
    splitFrom run rest = run.reverse :: splitFrom [] rest := by
  cases rest with
  | nil => simp [splitFrom, ofRun, hrun]
  | cons c rest =>
    have hc := hrest c rfl
    rw [Bool.or_eq_true] at hc
    by_cases hb : isBlank c = true
    · simp [splitFrom, ofRun, hrun, hb]
    · simp [splitFrom, ofRun, hrun, hb, hc.resolve_left hb]

theorem lexes_word {w : Text} (hne : w ≠ [])
    (hw : ∀ c ∈ w, isBlank c = false ∧ isMark c = false) : Lexes w [w] := by
  intro rest hrest
  rw [split, splitFrom_word hw, splitFrom_boundary (by simpa using hne) hrest]
  simp [split]

theorem Word.lexes {w : Text} (hw : Word w) : Lexes w [w] :=
  lexes_word hw.ne_nil fun _ hc => ⟨hw.not_blank hc, hw.not_mark hc⟩

/-- The bytes that nothing on a line is read behind. -/
def isEnd (c : UInt8) : Bool := c == ascii '\n' || c == ascii '\r' || c == ascii '#'

/-- The text has the tokens when it is read as part of a line. -/
structure Spells (t : Text) (tokens : List Text) : Prop where
  lexes : Lexes t tokens
  clean : ∀ c ∈ t, isEnd c = false

theorem spells_nil : Spells [] [] := ⟨lexes_nil, nofun⟩

theorem Word.spells {w : Text} (hw : Word w) : Spells w [w] := by
  refine ⟨hw.lexes, fun c hc => ?_⟩
  have hplain := hw.plain c hc
  simp only [isBreak, isBlank, Bool.or_eq_false_iff] at hplain
  simp [isEnd, hplain]

namespace Spells

theorem append {s t : Text} {a b : List Text} (hs : Spells s a) (ht : Spells t b)
    (hb : Boundary t) : Spells (s ++ t) (a ++ b) :=
  ⟨hs.lexes.append ht.lexes hb, List.forall_mem_append.mpr ⟨hs.clean, ht.clean⟩⟩

theorem blank {c : UInt8} (hc : isBlank c = true) (he : isEnd c = false) {t : Text}
    {tokens : List Text} (h : Spells t tokens) : Spells (c :: t) tokens :=
  ⟨h.lexes.blank hc, List.forall_mem_cons.mpr ⟨he, h.clean⟩⟩

theorem mark {c : UInt8} (hb : isBlank c = false) (hc : isMark c = true) (he : isEnd c = false)
    {t : Text} {tokens : List Text} (h : Spells t tokens) : Spells (c :: t) ([c] :: tokens) :=
  ⟨h.lexes.mark hb hc, List.forall_mem_cons.mpr ⟨he, h.clean⟩⟩

theorem not_mem {t : Text} {tokens : List Text} (h : Spells t tokens) {c : UInt8}
    (hc : isEnd c = true) : c ∉ t := fun hm => absurd (h.clean c hm) (by simp [hc])

end Spells

theorem spells_join {items : List Text} {tokens : List (List Text)}
    (h : List.Forall₂ Spells items tokens) :
    Spells (join (ofString ", ") items) ([ofString ","].intercalate tokens) := by
  induction h with
  | nil => exact spells_nil
  | @cons t a items tokens ht hrest ih =>
    cases hrest with
    | nil => simpa [join] using ht
    | @cons s b items tokens hs hrest =>
      have hsep : Spells (ofString ", " ++ join (ofString ", ") (s :: items))
          (ofString "," :: [ofString ","].intercalate (b :: tokens)) :=
        .mark (by decide) (by decide) (by decide) (.blank (by decide) (by decide) ih)
      have happend := ht.append hsep (boundary_cons (by decide) _)
      rw [join, List.intercalate_cons_cons, List.intercalate_cons_cons, List.append_assoc,
        List.append_assoc]
      exact happend

/-- What tokens are: marks, and bytes in a row that are neither blanks nor marks. -/
def IsToken (t : Text) : Prop :=
  (∃ c, isBlank c = false ∧ isMark c = true ∧ t = [c]) ∨
    t ≠ [] ∧ ∀ c ∈ t, isBlank c = false ∧ isMark c = false

theorem IsToken.lexes {t : Text} (h : IsToken t) : Lexes t [t] := by
  rcases h with ⟨c, hb, hm, rfl⟩ | ⟨hne, hplain⟩
  · exact .mark hb hm lexes_nil
  · exact lexes_word hne hplain

theorem IsToken.not_blank {t : Text} (h : IsToken t) {c : UInt8} (hc : c ∈ t) :
    isBlank c = false := by
  rcases h with ⟨a, hb, -, rfl⟩ | ⟨-, hplain⟩
  · rwa [List.mem_singleton.mp hc]
  · exact (hplain c hc).1

/-- How the tokens of a line stand on it: in order, with blanks anywhere, and a run of bytes goes on
until a blank, a mark or the end of the line. -/
inductive Layout : Text → List Text → Prop
  | nil : Layout [] []
  | blank {c : UInt8} {line : Text} {tokens : List Text} (hc : isBlank c = true)
      (h : Layout line tokens) : Layout (c :: line) tokens
  | mark {c : UInt8} {line : Text} {tokens : List Text} (hb : isBlank c = false)
      (hc : isMark c = true) (h : Layout line tokens) : Layout (c :: line) ([c] :: tokens)
  | run {w line : Text} {tokens : List Text} (hne : w ≠ [])
      (hw : ∀ c ∈ w, isBlank c = false ∧ isMark c = false) (hb : Boundary line)
      (h : Layout line tokens) : Layout (w ++ line) (w :: tokens)

theorem Layout.ofRun {run line : Text} {tokens : List Text}
    (hrun : ∀ c ∈ run, isBlank c = false ∧ isMark c = false) (hb : Boundary line)
    (h : Layout line tokens) : Layout (run.reverse ++ line) (ofRun run ++ tokens) := by
  by_cases hnil : run = []
  · simpa [hnil, Token.ofRun] using h
  · simpa [hnil, Token.ofRun] using h.run (w := run.reverse) (by simpa using hnil)
      (by simpa using hrun) hb

theorem layout_splitFrom {run : Text} (hrun : ∀ c ∈ run, isBlank c = false ∧ isMark c = false)
    (line : Text) : Layout (run.reverse ++ line) (splitFrom run line) := by
  induction line generalizing run with
  | nil => simpa [splitFrom] using Layout.nil.ofRun hrun boundary_nil
  | cons c line ih =>
    have hrest : Layout line (splitFrom [] line) := @ih [] (by simp)
    by_cases hb : isBlank c = true
    · simpa [splitFrom, hb] using (hrest.blank hb).ofRun hrun (boundary_cons (by simp [hb]) line)
    · rw [Bool.not_eq_true] at hb
      by_cases hm : isMark c = true
      · simpa [splitFrom, hb, hm] using
          (hrest.mark hb hm).ofRun hrun (boundary_cons (by simp [hm]) line)
      · rw [Bool.not_eq_true] at hm
        simpa [splitFrom, hb, hm] using ih (List.forall_mem_cons.mpr ⟨⟨hb, hm⟩, hrun⟩)

theorem layout_split (line : Text) : Layout line (split line) :=
  @layout_splitFrom [] (by simp) line

namespace Layout

variable {line : Text} {tokens : List Text}

theorem split_eq (h : Layout line tokens) : split line = tokens := by
  induction h with
  | nil => rfl
  | blank hc _ ih => rw [split_cons_blank hc, ih]
  | mark hb hc _ ih => rw [split_cons_mark hb hc, ih]
  | run hne hw hb _ ih => rw [lexes_word hne hw _ hb, ih, List.singleton_append]

theorem isToken (h : Layout line tokens) : ∀ t ∈ tokens, IsToken t := by
  induction h with
  | nil => simp
  | blank _ _ ih => exact ih
  | mark hb hc _ ih => exact List.forall_mem_cons.mpr ⟨Or.inl ⟨_, hb, hc, rfl⟩, ih⟩
  | run hne hw _ _ ih => exact List.forall_mem_cons.mpr ⟨Or.inr ⟨hne, hw⟩, ih⟩

/-- Nothing but blanks is left out. -/
theorem flatten_eq (h : Layout line tokens) : tokens.flatten = line.filter fun c => !isBlank c := by
  induction h with
  | nil => rfl
  | blank hc _ ih => simp [hc, ih]
  | mark hb _ _ ih => simp [hb, ih]
  | @run w line tokens _ hw _ _ ih =>
    have hkept : w.filter (fun c => !isBlank c) = w :=
      List.filter_eq_self.mpr fun c hc => by simp [hw c hc]
    rw [List.flatten_cons, List.filter_append, hkept, ih]

end Layout

theorem isToken_of_mem_split {line t : Text} (h : t ∈ split line) : IsToken t :=
  (layout_split line).isToken t h

theorem subset_of_mem_split {line t : Text} (h : t ∈ split line) : t ⊆ line := by
  intro c hc
  have hkept : c ∈ (split line).flatten := List.mem_flatten_of_mem h hc
  rw [(layout_split line).flatten_eq] at hkept
  exact (List.mem_filter.mp hkept).1

end Token

namespace Source

open Text

theorem rawLines_flatMap {lines : List Text} (h : ∀ l ∈ lines, ascii '\n' ∉ l) :
    rawLines (lines.flatMap (· ++ ofString "\n")) = lines := by
  have hsplit : Text.split (ascii '\n') (lines.flatMap (· ++ ofString "\n")) = lines ++ [[]] := by
    rw [← split_lines h List.not_mem_nil, List.append_nil]
    rfl
  simp [rawLines, hsplit]

theorem newline_not_mem_rawLines {t l : Text} (h : l ∈ rawLines t) : ascii '\n' ∉ l := by
  refine sep_not_mem_splitFrom (t := t) List.not_mem_nil ?_
  unfold rawLines at h
  simp only at h
  split at h
  · exact List.dropLast_subset _ h
  · exact h

theorem dropReturn_eq_self {l : Text} (h : ascii '\r' ∉ l) : dropReturn l = l := by
  unfold dropReturn
  cases hd : dropSuffix? "\r" l with
  | none => rfl
  | some s =>
    refine absurd ?_ h
    rw [eq_append_of_dropSuffix? hd]
    exact List.mem_append_right s (by decide)

theorem dropReturn_subset (l : Text) : dropReturn l ⊆ l := by
  unfold dropReturn
  cases hd : dropSuffix? "\r" l with
  | none => exact List.Subset.refl l
  | some s =>
    rw [eq_append_of_dropSuffix? hd]
    exact List.subset_append_left s _

end Source

end TypeFlow
