import TypeFlow.Proofs.InstructionGrammar

/-! What a line says: which of its tokens are operands, and that reading it gives one operand for
each of them, in order. -/

namespace TypeFlow

namespace Line

/-- The items of a list, which stand at every second place. -/
def listed : List Text → List Text
  | [] => []
  | [item] => [item]
  | item :: _ :: rest => item :: listed rest

/-- What flows in over the edges of a φ-node: of `[`, the label, the operand, `]` and the comma, the
third of each five. -/
def incoming : List Text → List Text
  | _ :: _ :: arg :: _ :: _ :: rest => arg :: incoming rest
  | [_, _, arg, _] => [arg]
  | _ => []

/-- The tokens of an instruction line that are operands. Targets come behind them. -/
def operandTokens (tokens : List Text) : List Text :=
  match (result tokens).2 with
  | [] => []
  | op :: rest =>
    match Opcode.ofName? op with
    | none => []
    | some op =>
      if op = .phi then incoming rest
      else (listed rest).take ((listed rest).length - op.targetCount)

variable {names : Names} {ts : List Text}

theorem listed_intercalate (is : List Text) :
    listed ([Text.ofString ","].intercalate (is.map ([·]))) = is := by
  induction is with
  | nil => rfl
  | cons t more ih =>
    cases more with
    | nil => rfl
    | cons t' more => exact congrArg (t :: ·) ih

theorem incoming_intercalate {groups : List (List Text)} {es : List Incoming}
    (h : List.Forall₂ (IsEdge names) groups es) :
    List.Forall₂ (fun t e => operand names t = .ok e.arg)
      (incoming ([Text.ofString ","].intercalate groups)) es := by
  induction h with
  | nil => exact .nil
  | cons hedge hrest ih =>
    obtain ⟨-, harg⟩ := hedge
    cases hrest with
    | nil => exact .cons (operand_eq_ok_iff.mpr harg) .nil
    | cons => exact .cons (operand_eq_ok_iff.mpr harg) ih

/-- A line that is read names what it names, and is no instruction if it is a φ-node. -/
structure Says (names : Names) (tokens : List Text) (s : Statement) : Prop where
  name : s.name = (result tokens).1.filter (· ≠ [])
  op_ne_phi : ∀ op targets args, s.body = .instr op targets args → op ≠ .phi
  operands : ∀ id block, List.Forall₂ (fun t o => operand names t = .ok o)
    (operandTokens tokens) (s.toValue id block).operands

theorem says_of_statement {s : Statement} (h : statement names ts = .ok s) : Says names ts s := by
  obtain ⟨written, op, rest, hresult, hname, hvalid, -, hbody⟩ := result_of_statement h
  obtain ⟨name, body⟩ := s
  refine ⟨by rw [hresult, hname], hbody.op_ne_phi, fun id block => ?_⟩
  simp only [operandTokens, hresult, Opcode.ofName?_text hvalid]
  cases hbody with
  | phi hedges =>
    simpa [Statement.toValue, Value.operands, List.forall₂_map_right_iff]
      using incoming_intercalate hedges
  | @instr _ argTokens labels args targets hop hargs htargets hcount =>
    have hlength : (argTokens ++ labels).length - op.targetCount = argTokens.length := by
      rw [List.length_append, hcount, Nat.add_sub_cancel]
    rw [if_neg hop, listed_intercalate, hlength, List.take_left]
    simpa [Statement.toValue, Value.operands] using hargs.imp fun _ _ => operand_eq_ok_iff.mpr

theorem Says.written {s : Statement} (h : Says names ts s) {name : Text}
    (hname : s.name = some name) : (result ts).1 = some name := by
  rw [h.name] at hname
  exact (Option.filter_eq_some_iff.mp hname).1

theorem Says.getD_name {s : Statement} (h : Says names ts s) :
    s.name.getD [] = (result ts).1.getD [] := by
  rw [h.name]
  cases (result ts).1 with
  | none => rfl
  | some written =>
    by_cases hnil : written = []
    · rw [hnil]
      rfl
    · rw [filter_written hnil]

end Line

end TypeFlow
