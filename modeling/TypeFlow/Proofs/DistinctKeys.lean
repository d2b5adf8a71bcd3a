import Mathlib.Data.List.Nodup
import TypeFlow.Toml.Document

/-! The tables of a document have each name once, in whatever parts they were written. -/

namespace TypeFlow.Toml

/-- The table that a value is, which is the last one of a list of tables. -/
def Value.fields? : Value → Option Fields
  | table fields | tables fields => some fields
  | _ => none

namespace Fields

/-- Each name stands once in a table and in the tables inside it. -/
inductive Distinct : Fields → Prop
  | intro {fields : Fields} (nodup : (fields.map (·.1)).Nodup)
    (inner : ∀ p ∈ fields, ∀ below, p.2.fields? = some below → Distinct below) : Distinct fields

end Fields

def Value.Distinct (v : Value) : Prop := ∀ fields, v.fields? = some fields → Fields.Distinct fields

namespace Fields

theorem distinct_nil : Distinct [] := .intro .nil (by simp)

theorem Distinct.table {fields : Fields} (h : Distinct fields) :
    (Value.table fields).Distinct := by
  intro fields' he
  cases he
  exact h

theorem Distinct.tables {fields : Fields} (h : Distinct fields) :
    (Value.tables fields).Distinct := by
  intro fields' he
  cases he
  exact h

theorem Distinct.of_mem {fields : Fields} (h : Distinct fields) {p : Text × Value}
    (hp : p ∈ fields) : p.2.Distinct := by
  obtain ⟨-, inner⟩ := h
  exact inner p hp

theorem mem_of_lookup {fields : Fields} {name : Text} {v : Value}
    (h : fields.lookup name = some v) : (name, v) ∈ fields := by
  obtain ⟨before, after, he, -⟩ := List.lookup_eq_some_iff.mp h
  simp [he]

theorem Distinct.of_lookup {fields : Fields} (h : Distinct fields) {name : Text} {v : Value}
    (hv : fields.lookup name = some v) : v.Distinct :=
  h.of_mem (mem_of_lookup hv)

theorem Distinct.unique {fields : Fields} (h : Distinct fields) {name : Text} {v v' : Value}
    (hv : (name, v) ∈ fields) (hv' : (name, v') ∈ fields) : v = v' := by
  obtain ⟨nodup, -⟩ := h
  exact congrArg Prod.snd (List.inj_on_of_nodup_map nodup hv hv' rfl)

theorem Distinct.lookup_eq {fields : Fields} (h : Distinct fields) {name : Text} {v : Value}
    (hv : (name, v) ∈ fields) : fields.lookup name = some v := by
  cases hl : fields.lookup name with
  | none =>
    have hne := List.lookup_eq_none_iff.mp hl (name, v) hv
    simp at hne
  | some v' => rw [h.unique (mem_of_lookup hl) hv]

theorem Distinct.put {fields : Fields} (h : Distinct fields) (name : Text) {v : Value}
    (hv : v.Distinct) : Distinct (put fields name v) := by
  obtain ⟨nodup, inner⟩ := h
  refine .intro ?_ ?_
  · show (name :: (fields.filter (·.1 != name)).map (·.1)).Nodup
    refine List.nodup_cons.mpr ⟨fun hm => ?_, ?_⟩
    · obtain ⟨p, hp, rfl⟩ := List.mem_map.mp hm
      simp at hp
    · exact nodup.sublist (List.filter_sublist.map _)
  · intro p hp
    rcases List.mem_cons.mp hp with rfl | hp
    · exact hv
    · exact inner p (List.mem_filter.mp hp).1

theorem Distinct.write {name : Text} {v : Value} (hv : v.Distinct) {path : Key} {fields : Fields}
    (h : Distinct fields) : Distinct (write name v path fields) := by
  induction path generalizing fields with
  | nil => exact h.put name hv
  | cons part path ih =>
    unfold Fields.write
    split
    · next inner hpart =>
      have hinner : Distinct inner := h.of_lookup hpart inner rfl
      exact h.put part (ih hinner).table
    · next last hpart =>
      have hlast : Distinct last := h.of_lookup hpart last rfl
      exact h.put part (ih hlast).tables
    · exact h

theorem Distinct.extend {path : Key} {fields : Fields} (h : Distinct fields) {r : Fields × Nat}
    (hr : extend path fields = some r) : Distinct r.1 := by
  induction path generalizing fields r with
  | nil =>
    cases hr
    exact h
  | cons name path ih =>
    unfold Fields.extend at hr
    split at hr
    · obtain ⟨⟨inner, n⟩, hinner, rfl⟩ := Option.map_eq_some_iff.mp hr
      exact h.put name (ih distinct_nil hinner).table
    · next below hname =>
      obtain ⟨⟨inner, n⟩, hinner, rfl⟩ := Option.map_eq_some_iff.mp hr
      exact h.put name (ih (h.of_lookup hname below rfl) hinner).table
    · next last hname =>
      obtain ⟨⟨inner, n⟩, hinner, rfl⟩ := Option.map_eq_some_iff.mp hr
      exact h.put name (ih (h.of_lookup hname last rfl) hinner).tables
    · cases hr

end Fields

namespace Draft

variable {d d' : Draft}

def Distinct (d : Draft) : Prop := Fields.Distinct d.fields

theorem Distinct.assign (h : d.Distinct) {context : Key} {name : Text} {v : Value}
    (hv : v.Distinct) (hd : d.assign context name v = some d') : d'.Distinct := by
  unfold Draft.assign at hd
  simp only at hd
  split at hd
  · cases hd
  · split at hd
    · cases hd
      exact Fields.Distinct.write hv h
    · split at hd
      · cases hd
        exact Fields.Distinct.write hv h
      · split at hd
        · cases hd
          exact h
        · cases hd

theorem Distinct.establish (h : d.Distinct) {path : Key} (hd : d.establish path = some d') :
    d'.Distinct := by
  obtain ⟨r, hr, rfl⟩ := Option.map_eq_some_iff.mp hd
  exact Fields.Distinct.extend h hr

theorem Distinct.openTable (h : d.Distinct) {key : Key} (hd : d.openTable key = some d') :
    d'.Distinct := by
  obtain ⟨d₁, h₁, hd⟩ := Option.bind_eq_some_iff.mp hd
  exact (h.establish h₁).assign Fields.distinct_nil.table hd

theorem Distinct.openElement (h : d.Distinct) {key : Key} (hd : d.openElement key = some d') :
    d'.Distinct := by
  obtain ⟨d₁, h₁, hd⟩ := Option.bind_eq_some_iff.mp hd
  have hwrite : ∀ path name, (d₁.write path name (.tables [])).Distinct := by
    intro path name
    exact Fields.Distinct.write Fields.distinct_nil.tables (h.establish h₁)
  simp only at hd
  split at hd
  · cases hd
    exact hwrite _ _
  · cases hd
    exact hwrite _ _
  · cases hd

theorem Distinct.descend (h : d.Distinct) {context path : Key}
    (hd : d.descend context path = some d') : d'.Distinct := by
  induction path generalizing d context with
  | nil =>
    cases hd
    exact h
  | cons name rest ih =>
    obtain ⟨d₁, h₁, hd⟩ := Option.bind_eq_some_iff.mp hd
    exact ih (Distinct.openTable (d := d.mark (context ++ [name])) h h₁) hd

end Draft

namespace Numeral

/-- What was read, if anything, is no table. -/
def Flat (r : Except Fault (Value × List Char)) : Prop :=
  ∀ v cs, r = .ok (v, cs) → v.fields? = none

theorem flat_error (f : Fault) : Flat (.error f) := by
  intro v cs h
  cases h

theorem flat_ok {v : Value} (hv : v.fields? = none) (cs : List Char) : Flat (.ok (v, cs)) := by
  intro v' cs' h
  cases h
  exact hv

theorem flat_accept (ok : Bool) {v : Value} (hv : v.fields? = none) (rest : List Char) :
    Flat (accept ok v rest) := by
  unfold accept
  split
  · exact flat_ok hv rest
  · exact flat_error _

theorem flat_integer (taken rest : List Char) : Flat (integer taken rest) := by
  unfold integer
  simp only
  split
  · exact flat_error _
  · exact flat_accept _ rfl _

theorem flat_decimal (taken cs : List Char) : Flat (decimal taken cs) := by
  unfold decimal
  simp only
  split
  · exact flat_accept _ rfl _
  · exact flat_integer _ _

theorem flat_plain (cs : List Char) : Flat (plain cs) := by
  unfold plain
  simp only
  split
  · exact flat_accept _ rfl _
  · exact flat_decimal _ _

theorem flat_unsigned (cs : List Char) : Flat (unsigned cs) := by
  unfold unsigned
  split
  · split
    · unfold based
      simp only
      split
      · exact flat_integer _ _
      · exact flat_error _
    · exact flat_plain _
  · exact flat_plain _

theorem flat_signed (sign : Char) (cs : List Char) : Flat (signed sign cs) := by
  unfold signed
  split
  · exact flat_ok rfl _
  · exact flat_ok rfl _
  · split
    · exact flat_decimal _ _
    · exact flat_error _

end Numeral

open Numeral in
theorem Reader.flat_plain (cs : List Char) : Flat (plain cs) := by
  have hquoted : ∀ q cs, Flat ((quoted q cs).map fun r => (.text r.1, r.2)) := by
    intro q cs
    cases quoted q cs with
    | error f => exact flat_error f
    | ok r => exact flat_ok rfl r.2
  unfold plain
  split
  · exact hquoted _ _
  · exact hquoted _ _
  · exact flat_ok rfl _
  · exact flat_ok rfl _
  · exact flat_ok rfl _
  · exact flat_ok rfl _
  · split
    · exact flat_signed _ _
    · split
      · exact flat_unsigned _
      · exact flat_error _
  · exact flat_error _

namespace Writer

variable {α β : Type}

/-- When the action ends, the names of the draft are distinct if they were before, and the answer is
as it should be. -/
def Keeps (x : Writer α) (P : α → Prop) : Prop :=
  ∀ d cs a d' cs', x d cs = .ok ((a, d'), cs') → d.Distinct → d'.Distinct ∧ P a

namespace Keeps

theorem pure {a : α} {P : α → Prop} (h : P a) : Keeps (Pure.pure a) P := by
  intro d cs b d' cs' hx hd
  cases hx
  exact ⟨hd, h⟩

theorem throw (f : Fault) (P : α → Prop) : Keeps (throwThe Fault f) P := by
  intro d cs b d' cs' hx hd
  cases hx

theorem bind {x : Writer α} {f : α → Writer β} {P : α → Prop} {Q : β → Prop} (hx : Keeps x P)
    (hf : ∀ a, P a → Keeps (f a) Q) : Keeps (x >>= f) Q := by
  intro d cs b d' cs' h hd
  cases hr : x d cs with
  | error e =>
    simp only [Bind.bind, StateT.bind, hr, Except.bind] at h
    cases h
  | ok r =>
    obtain ⟨⟨a, d₁⟩, cs₁⟩ := r
    simp only [Bind.bind, StateT.bind, hr, Except.bind] at h
    obtain ⟨hd₁, ha⟩ := hx d cs a d₁ cs₁ hr hd
    exact hf a ha d₁ cs₁ b d' cs' h hd₁

theorem lift {x : Reader α} {P : α → Prop} (h : ∀ cs a cs', x cs = .ok (a, cs') → P a) :
    Keeps (liftM x) P := by
  intro d cs a d' cs' hx hd
  cases hr : x cs with
  | error e =>
    simp only [liftM, monadLift, MonadLift.monadLift, StateT.lift, Bind.bind, StateT.bind, hr,
      Except.bind] at hx
    cases hx
  | ok r =>
    obtain ⟨b, cs₁⟩ := r
    simp only [liftM, monadLift, MonadLift.monadLift, StateT.lift, Bind.bind, StateT.bind, hr,
      Except.bind] at hx
    cases hx
    exact ⟨hd, h cs _ _ hr⟩

theorem reader (x : Reader α) : Keeps (liftM x) fun _ => True := lift fun _ _ _ _ => trivial

theorem modify {f : Draft → Draft} (h : ∀ d, d.Distinct → (f d).Distinct) :
    Keeps (modify f) fun _ => True := by
  intro d cs a d' cs' hx hd
  cases hx
  exact ⟨h d hd, trivial⟩

theorem change {f : Draft → Option Draft}
    (h : ∀ d d', d.Distinct → f d = some d' → d'.Distinct) : Keeps (change f) fun _ => True := by
  intro d cs a d' cs' hx hd
  have hget : (Pure.pure (d, d) : Reader (Draft × Draft)) cs = .ok ((d, d), cs) := rfl
  simp only [Writer.change, Bind.bind, StateT.bind, get, getThe, MonadStateOf.get, StateT.get,
    Except.bind, hget] at hx
  cases hf : f d with
  | none =>
    simp only [hf] at hx
    cases hx
  | some d₁ =>
    simp only [hf] at hx
    cases hx
    exact ⟨h d d' hd hf, trivial⟩

end Keeps

theorem keeps_define {context key : Key} {read : Key → Text → Writer Value}
    (h : ∀ inner name, Keeps (read inner name) Value.Distinct) :
    Keeps (define context key read) fun p => p.2.Distinct := by
  refine .bind (.change fun d d' hd he => hd.descend he) fun _ _ => ?_
  refine .bind (h _ _) fun v hv => ?_
  refine .bind (.change fun d d' hd he => hd.assign hv he) fun _ _ => ?_
  exact .bind (.modify fun d hd => hd) fun _ _ => .pure hv

theorem keeps_value_succ {steps : Nat}
    (helements : ∀ context name, Keeps (elements context name steps) fun _ => True)
    (hpairs : ∀ context, Keeps (pairs context [] steps) Fields.Distinct) (context : Key)
    (name : Text) (inList : Bool) :
    Keeps (value context name inList (steps + 1)) Value.Distinct := by
  refine .bind (.reader _) fun _ _ => .bind (.reader _) fun c _ => ?_
  split
  · refine .bind (.reader _) fun _ _ => .bind (.modify fun d hd => hd) fun _ _ => ?_
    refine .bind (helements _ _) fun vs _ => .pure fun fields he => ?_
    cases he
  · refine .bind (.reader _) fun _ _ => .bind (.modify fun d hd => hd) fun _ _ => ?_
    refine .bind (.change fun d d' hd he => ?_) fun _ _ => ?_
    · split at he
      · exact hd.openElement he
      · exact hd.openTable he
    · refine .bind (.reader _) fun _ _ => .bind (.reader _) fun c _ => ?_
      split
      · exact .bind (.reader _) fun _ _ => .pure Fields.distinct_nil.table
      · exact .bind (hpairs _) fun _ hfields => .pure hfields.table
  · refine .lift fun cs v cs' hv fields he => ?_
    rw [Reader.flat_plain cs v cs' hv] at he
    cases he

theorem keeps_elements_succ {steps : Nat}
    (hvalue : ∀ context name inList, Keeps (value context name inList steps) Value.Distinct)
    (helements : ∀ context name, Keeps (elements context name steps) fun _ => True) (context : Key)
    (name : Text) : Keeps (elements context name (steps + 1)) fun _ => True := by
  refine .bind (.reader _) fun _ _ => .bind (.reader _) fun c _ => ?_
  split
  · exact .bind (.reader _) fun _ _ => .pure trivial
  · refine .bind (hvalue _ _ _) fun _ _ => .bind (.reader _) fun _ _ => ?_
    refine .bind (.reader _) fun c _ => ?_
    split
    · exact .bind (helements _ _) fun _ _ => .pure trivial
    · split
      · exact .pure trivial
      · exact .throw _ _

theorem keeps_pairs_succ {steps : Nat}
    (hvalue : ∀ context name inList, Keeps (value context name inList steps) Value.Distinct)
    (hpairs : ∀ context fields, Fields.Distinct fields →
      Keeps (pairs context fields steps) Fields.Distinct) (context : Key) {fields : Fields}
    (hfields : Fields.Distinct fields) :
    Keeps (pairs context fields (steps + 1)) Fields.Distinct := by
  refine .bind (.reader _) fun k _ => ?_
  refine .bind (keeps_define fun inner name => hvalue inner name false) fun p hp => ?_
  refine .bind (.reader _) fun _ _ => .bind (.reader _) fun c _ => ?_
  split
  · exact hpairs _ _ (hfields.put p.1 hp)
  · split
    · exact .pure (hfields.put p.1 hp)
    · exact .throw _ _

theorem keeps_values (steps : Nat) :
    (∀ context name inList, Keeps (value context name inList steps) Value.Distinct) ∧
      (∀ context name, Keeps (elements context name steps) fun _ => True) ∧
      ∀ context fields, Fields.Distinct fields →
        Keeps (pairs context fields steps) Fields.Distinct := by
  -- The three readers call each other, always with one step less.
  induction steps with
  | zero => exact ⟨fun _ _ _ => .throw _ _, fun _ _ => .throw _ _, fun _ _ _ => .throw _ _⟩
  | succ steps ih =>
    obtain ⟨hvalue, helements, hpairs⟩ := ih
    refine ⟨?_, ?_, ?_⟩
    · exact keeps_value_succ helements fun context => hpairs context [] Fields.distinct_nil
    · exact keeps_elements_succ hvalue helements
    · exact fun context fields hfields => keeps_pairs_succ hvalue hpairs context hfields

theorem keeps_header (key : Key) {enter : Draft → Option Draft}
    (h : ∀ d d', d.Distinct → enter d = some d' → d'.Distinct) :
    Keeps (header key enter) fun _ => True := by
  refine .bind (.change h) fun _ _ => ?_
  exact .bind (.modify fun d hd => hd) fun _ _ => .pure trivial

theorem keeps_statement (context : Key) (steps : Nat) :
    Keeps (statement context steps) fun _ => True := by
  refine .bind (.reader _) fun c _ => ?_
  split
  · refine .bind (.reader _) fun _ _ => .bind (.reader _) fun c _ => ?_
    split
    · refine .bind (.reader _) fun _ _ => .bind (.reader _) fun k _ => ?_
      refine .bind (.reader _) fun c _ => ?_
      split
      · exact keeps_header k fun d d' hd he => hd.openElement he
      · exact .throw _ _
    · exact .bind (.reader _) fun k _ => keeps_header k fun d d' hd he => hd.openTable he
  · refine .bind (.reader _) fun k _ => ?_
    have hvalue := (keeps_values steps).1
    exact .bind (keeps_define fun inner name => hvalue inner name false) fun _ _ => .pure trivial

theorem keeps_statements (context : Key) (steps : Nat) :
    Keeps (statements context steps) fun _ => True := by
  induction steps generalizing context with
  | zero => exact .throw _ _
  | succ steps ih =>
    refine .bind (.reader _) fun _ _ => .bind (.reader _) fun c _ => ?_
    split
    · refine .bind (keeps_statement context steps) fun next _ => ?_
      exact .bind (.reader _) fun _ _ => ih next
    · exact .pure trivial

end Writer

/-- However a text is written, no table of its document has a name twice. -/
theorem Document.distinct_read {t : Text} {doc : Document} (h : read t = .ok doc) :
    Fields.Distinct doc.fields := by
  unfold read at h
  simp only [bind, Except.bind] at h
  split at h
  · cases h
  · split at h
    · cases h
    · next r hr =>
      obtain ⟨⟨u, d⟩, rest⟩ := r
      cases h
      set cs := (Rune.ofText (dropByteOrder t)).map decoded
      have hrun : Writer.statements [] (2 * cs.length + 2) {} cs = .ok ((u, d), rest) := by
        cases he : Writer.statements [] (2 * cs.length + 2) {} cs with
        | error f => simp [StateT.run, he, Except.mapError] at hr
        | ok r => simpa [StateT.run, he, Except.mapError] using hr
      exact (Writer.keeps_statements [] _ {} cs u d rest hrun Fields.distinct_nil).1

end TypeFlow.Toml
