import TypeFlow.Proofs.Reading

/-! Sources one behind the other. A source that starts with a header is read behind other lines as
it is read alone, with its lines counted from where it starts. -/

namespace TypeFlow

namespace Source

open Text

/-- A text of whole lines is empty or ends with a line feed. -/
def Whole (t : Text) : Prop := t = [] ∨ t.getLast? = some (ascii '\n')

theorem rawLines_append {a : Text} (ha : Whole a) (b : Text) :
    rawLines (a ++ b) = rawLines a ++ rawLines b := by
  rcases ha with rfl | ha
  · rfl
  · obtain ⟨t, rfl⟩ := List.getLast?_eq_some_iff.mp ha
    have ht : rawLines (t ++ [ascii '\n']) = Text.split (ascii '\n') t := by
      have hsplit : Text.split (ascii '\n') (t ++ [ascii '\n']) = _ ++ [[]] :=
        split_append_sep _ t []
      simp [rawLines, hsplit]
    have hb := split_ne_nil (ascii '\n') b
    rw [ht, List.append_assoc]
    simp only [rawLines, List.singleton_append, split_append_sep,
      List.getLast?_append_of_ne_nil _ hb]
    by_cases hlast : (Text.split (ascii '\n') b).getLast? == some []
    · simp only [hlast, if_true, List.dropLast_append_of_ne_nil hb]
    · simp only [hlast, if_false, Bool.false_eq_true]

theorem readable_append {a : Text} (ha : Whole a) (b : Text) :
    readable (a ++ b) = if (readable a).2 then readable a
      else ((readable a).1 ++ (readable b).1, (readable b).2) := by
  have hsub : ((rawLines a).takeWhile (·.length < maxLine)).Sublist (rawLines a) :=
    List.takeWhile_sublist _
  have hle := hsub.length_le
  simp only [readable, rawLines_append ha, List.takeWhile_append, decide_eq_true_eq]
  by_cases hall : ((rawLines a).takeWhile (·.length < maxLine)).length = (rawLines a).length
  · have htake := hsub.eq_of_length hall
    simp [htake]
  · have hlt : ((rawLines a).takeWhile (·.length < maxLine)).length < (rawLines a).length := by
      omega
    simp only [hall, hlt, if_false, if_true, List.length_append, decide_true, Prod.mk.injEq,
      true_and, decide_eq_true_eq]
    omega

/-- A line as it is counted when `n` lines come before. -/
def Numbered.shift (n : Nat) (l : Numbered) : Numbered := { l with number := l.number + n }

theorem numbered_append (xs ys : List Text) :
    numbered (xs ++ ys) = numbered xs ++ (numbered ys).map (Numbered.shift xs.length) := by
  have hzip : ys.zipIdx (1 + xs.length) = (ys.zipIdx 1).map (Prod.map id (· + xs.length)) := by
    rw [List.map_snd_add_zipIdx_eq_zipIdx, Nat.add_comm]
  simp only [numbered, List.zipIdx_append, List.filterMap_append, hzip, List.filterMap_map,
    List.map_filterMap]
  congr 2
  funext ⟨line, number⟩
  simp only [Function.comp_apply, Prod.map, id]
  cases Token.split (before (ascii '#') (dropReturn line)) <;> rfl

/-- An error as it is when `n` lines come before. -/
def Error.shift (n : Nat) : Error → Error
  | line file number fault => line file (number + n) fault
  | e => e

variable {α β γ δ : Type} {n : Nat} {file : Text}

/-- What reading gives when `n` lines come before, if `f` says what becomes of what is read. -/
def moved (n : Nat) (f : α → β) (x : Except Error α) : Except Error β :=
  (x.map f).mapError (Error.shift n)

theorem moved_bind {f : α → β} {h : γ → δ} {g : α → Except Error γ} {g' : β → Except Error δ}
    (hg : ∀ a, g' (f a) = moved n h (g a)) (x : Except Error α) :
    moved n f x >>= g' = moved n h (x >>= g) := by
  cases x with
  | error e => rfl
  | ok a => exact hg a

theorem foldlM_moved {f : α → β} {k : γ → δ} {step : α → γ → Except Error α}
    {step' : β → δ → Except Error β} (hstep : ∀ a c, step' (f a) (k c) = moved n f (step a c))
    (cs : List γ) (a : α) : (cs.map k).foldlM step' (f a) = moved n f (cs.foldlM step a) := by
  induction cs generalizing a with
  | nil => rfl
  | cons c cs ih =>
    rw [List.map_cons, List.foldlM_cons, List.foldlM_cons, hstep]
    exact moved_bind ih _

theorem defineAll_shift (names : Line.Names) (next : ValueId) (lines : List Numbered) :
    defineAll file names next (lines.map (Numbered.shift n)) =
      moved n id (defineAll file names next lines) := by
  induction lines generalizing names next with
  | nil => rfl
  | cons l lines ih =>
    simp only [List.map_cons, defineAll, Numbered.shift]
    cases define names next l.tokens with
    | error fault => rfl
    | ok r => exact ih _ _

theorem moved_call (f : Builder → Except Builder.Fault (Unit × Builder)) (b : Builder) :
    moved n id (built (call f b)) = built (call f b) := by
  unfold call
  cases f b <;> rfl

/-- What a statement may fail with names no line. -/
theorem moved_addStatement (names : Line.Names) (b : Builder) (s : Line.Statement) :
    moved n id (built (addStatement names s b)) = built (addStatement names s b) := by
  obtain ⟨name, body⟩ := s
  simp only [addStatement, bind, EStateM.bind]
  rw [call]
  cases addBody body b with
  | error fault => rfl
  | ok r =>
    obtain ⟨id, b'⟩ := r
    cases name with
    | none => rfl
    | some name =>
      by_cases hid : (names.value? name).getD 0 = id
      · simp only [hid, ne_eq, not_true_eq_false, if_false]
        exact moved_call _ b'
      · simp only [hid, ne_eq, not_false_eq_true, if_true]
        rfl

theorem addLine_shift (names : Line.Names) (b : Builder) (l : Numbered) :
    addLine file names b (l.shift n) = moved n id (addLine file names b l) := by
  simp only [addLine_eq, Numbered.shift]
  cases Token.label? l.tokens with
  | some label => rfl
  | none =>
    cases Line.statement names l.tokens with
    | error fault => rfl
    | ok s => exact (moved_addStatement names b s).symm

def Draft.shift (n : Nat) (d : Draft) : Draft :=
  { d with number := d.number + n, lines := d.lines.map (Numbered.shift n) }

theorem Draft.toFunc_shift (d : Draft) :
    (d.shift n).toFunc file = moved n id (d.toFunc file) := by
  simp only [toFunc, shift, ← List.map_reverse, defineAll_shift]
  refine moved_bind (fun names => ?_) _
  by_cases hnone : names.labels.isEmpty = true
  · simp only [id, hnone, if_true]
    rfl
  · simp only [id, hnone]
    refine (congrArg (· >>= _) (foldlM_moved (addLine_shift names) _ _)).trans
      (moved_bind (fun b => ?_) _)
    cases b.finish <;> rfl

/-- Where reading stands when `n` lines with the functions `done` come before. -/
def Progress.behind (n : Nat) (done : List Func) (p : Progress) : Progress :=
  ⟨p.done ++ done, p.draft.map (Draft.shift n)⟩

namespace Progress

theorem close_behind (done : List Func) (p : Progress) :
    (p.behind n done).close file = moved n (· ++ done) (p.close file) := by
  obtain ⟨fns, draft⟩ := p
  cases draft with
  | none => rfl
  | some d =>
    simp only [behind, close, Option.map_some, Draft.toFunc_shift]
    cases d.toFunc file <;> rfl

theorem step_behind (done : List Func) (p : Progress) (l : Numbered) :
    (p.behind n done).step file (l.shift n) = moved n (behind n done) (p.step file l) := by
  unfold step
  by_cases hfunc : l.tokens.head? = some (ofString "func")
  · simp only [Numbered.shift, hfunc, if_true]
    split
    · rw [close_behind]
      cases p.close file <;> rfl
    · rfl
  · simp only [Numbered.shift, hfunc, if_false]
    obtain ⟨fns, draft⟩ := p
    cases draft <;> rfl

theorem finish_behind (done : List Func) (cut : Bool) (p : Progress) :
    (p.behind n done).finish file cut = moved n (done.reverse ++ ·) (p.finish file cut) := by
  cases cut with
  | true => rfl
  | false =>
    simp only [finish, close_behind]
    cases p.close file with
    | error e => rfl
    | ok fns => simp [moved, Except.map, Except.mapError]

/-- A header ends the function before it, and what follows is read as if nothing were before. -/
theorem foldlM_step_header {l : Numbered} {name : Text} (hl : l.tokens = [ofString "func", name])
    (lines : List Numbered) (p : Progress) :
    ((l :: lines).map (Numbered.shift n)).foldlM (step file) p = (p.close file >>= fun done =>
      moved n (behind n done) ((l :: lines).foldlM (step file) {})) := by
  have hstep : ∀ (k : Nat) (q : Progress), q.step file { l with number := k } =
      (q.close file).map fun done => ⟨done, some { name, number := k }⟩ := by
    intro k q
    simp [step, hl]
  rw [List.map_cons, List.foldlM_cons, List.foldlM_cons, Numbered.shift, hstep,
    show step file {} l = _ from hstep l.number {}]
  cases p.close file with
  | error e => rfl
  | ok done => exact foldlM_moved (step_behind done) lines ⟨[], some { name, number := l.number }⟩

end Progress

/-- The first line of a text is a header and can be read. -/
def Opens (t : Text) : Prop :=
  ∃ line rest name, rawLines t = line :: rest ∧ line.length < maxLine ∧
    Token.split (before (ascii '#') (dropReturn line)) = [ofString "func", name]

theorem Opens.numbered {t : Text} (h : Opens t) :
    ∃ l lines name, numbered (readable t).1 = l :: lines ∧ l.tokens = [ofString "func", name] := by
  obtain ⟨line, rest, name, hraw, hlen, htokens⟩ := h
  have hshort : (readable t).1 = line :: rest.takeWhile (·.length < maxLine) := by
    simp [readable, hraw, hlen]
  rw [hshort, Source.numbered, List.zipIdx_cons, List.filterMap_cons]
  simp only [htokens]
  exact ⟨_, _, name, rfl, rfl⟩

/-- Whole lines and a source that starts with a header behind them are read as two sources: an error
in the lines is the error, one in the source counts its lines from where it starts, and if there is
none, the functions of both come in order. -/
theorem parse_append (file : Text) {a b : Text} (ha : Whole a) (hb : Opens b) :
    parse file (a ++ b) = do
      let fns ← parse file a
      let more ← (parse file b).mapError (Error.shift (rawLines a).length)
      return fns ++ more := by
  obtain ⟨l, lines, name, hlines, hl⟩ := hb.numbered
  rw [parse_eq, readable_append ha, parse_eq file a]
  cases hcut : (readable a).2 with
  | true =>
    simp only [hcut, if_true, bind_assoc]
    refine bind_congr fun p => ?_
    rfl
  | false =>
    rw [cut_eq_false_iff] at hcut
    have hrest : ∀ done, (moved (rawLines a).length (Progress.behind (rawLines a).length done)
          ((l :: lines).foldlM (Progress.step file) {}) >>= Progress.finish file (readable b).2) =
        moved (rawLines a).length (done.reverse ++ ·) (parse file b) := by
      intro done
      rw [parse_eq file b, hlines]
      exact moved_bind (Progress.finish_behind done _) _
    simp only [Bool.false_eq_true, if_false, hcut, numbered_append, hlines, List.foldlM_append,
      bind_assoc, Progress.foldlM_step_header hl, hrest]
    refine bind_congr fun p => ?_
    show _ = ((p.close file).map List.reverse >>= _)
    cases p.close file with
    | error e => rfl
    | ok done => cases parse file b <;> rfl

/-- The third line of the second text is the seventh of both. -/
theorem parse_append_seventh :
    let a : Text := "func f\ne:\n\tret\n# done\n"
    let b : Text := "func g # next\r\ne:\n\tjmp x\n"
    Whole a ∧ Opens b ∧ parse "in" b = .error (.line "in" 3 (.undefinedBlock "x")) ∧
      parse "in" (a ++ b) = .error (.line "in" 7 (.undefinedBlock "x")) := by
  intro a b
  have ha : Whole a := Or.inr (by decide +kernel)
  have hb : Opens b := ⟨"func g # next\r", ["e:", "\tjmp x"], "g", by decide +kernel,
    by decide +kernel, by decide +kernel⟩
  refine ⟨ha, hb, by decide +kernel, ?_⟩
  rw [parse_append "in" ha hb]
  decide +kernel

end Source

end TypeFlow
