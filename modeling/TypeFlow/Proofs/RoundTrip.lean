import TypeFlow.Proofs.ReadFunctions
import TypeFlow.Proofs.ReadingListings

/-! Reading what was written. A listing is read unless two of its values share a name or a line is
too long, and then as the function that it shows, with the values renumbered. -/

namespace TypeFlow

theorem Func.ne_nil_of_mem_bodyTokens {fn : Func} {ts : List Text} (h : ts ∈ fn.bodyTokens) :
    ts ≠ [] := by
  obtain ⟨b, -, hts⟩ := List.mem_flatMap.mp h
  rcases List.mem_cons.mp hts with rfl | hts
  · simp
  · obtain ⟨v, -, rfl⟩ := List.mem_map.mp hts
    simp [valueTokens]

instance (fn : Func) : Decidable fn.DistinctNames := inferInstanceAs (Decidable (List.Nodup _))

namespace Source

open Token

/-! Sources made of listings -/

theorem split_spelled {line : Text} {tokens : List Text} (h : Spells line tokens) :
    Token.split (Text.before (Text.ascii '#') (dropReturn line)) = tokens := by
  rw [dropReturn_eq_self (h.not_mem (by decide)), Text.before_eq_self (h.not_mem (by decide))]
  exact h.lexes.split_eq

theorem newline_not_mem_spelled {lines : List Text} {tokens : List (List Text)}
    (h : List.Forall₂ Spells lines tokens) : ∀ line ∈ lines, Text.ascii '\n' ∉ line := by
  intro line hl
  obtain ⟨ts, -, hts⟩ := exists_of_mem_left h hl
  exact hts.not_mem (by decide)

theorem tokens_numbered {lines : List Text} {tokens : List (List Text)}
    (h : List.Forall₂ Spells lines tokens) (hne : ∀ ts ∈ tokens, ts ≠ []) :
    (numbered lines).map (·.tokens) = tokens := by
  unfold numbered
  generalize 1 = n
  induction h generalizing n with
  | nil => rfl
  | @cons line ts lines tokens hline hrest ih =>
    obtain ⟨hts, hrest⟩ := List.forall_mem_cons.mp hne
    obtain ⟨t, ts, rfl⟩ := List.exists_cons_of_ne_nil hts
    rw [List.zipIdx_cons, List.filterMap_cons]
    simp only [split_spelled hline, List.map_cons]
    exact congrArg _ (ih hrest (n + 1))

/-- The draft whose lines show a function. -/
def Draft.Shows (d : Draft) (fn : Func) : Prop :=
  d.name = fn.name ∧ d.lines.reverse.map (·.tokens) = fn.bodyTokens

theorem exists_shows {fns : List Func} {ls : List Numbered}
    (h : ls.map (·.tokens)
      = fns.flatMap fun fn => [Text.ofString "func", fn.name] :: fn.bodyTokens) :
    ∃ ds, ls = ds.flatMap Draft.source ∧ List.Forall₂ Draft.Shows ds fns := by
  induction fns generalizing ls with
  | nil => exact ⟨[], List.map_eq_nil_iff.mp h, .nil⟩
  | cons fn fns ih =>
    rw [List.flatMap_cons] at h
    obtain ⟨first, rest, rfl, hfirst, hrest⟩ := List.map_eq_append_iff.mp h
    obtain ⟨l, body, rfl, hl, hbody⟩ := List.map_eq_cons_iff.mp hfirst
    obtain ⟨ds, rfl, hds⟩ := ih hrest
    refine ⟨⟨fn.name, l.number, body.reverse⟩ :: ds, ?_, .cons ⟨rfl, ?_⟩ hds⟩
    · simp [Draft.source, Draft.header, ← hl]
    · simpa using hbody

theorem isBody_of_shows {d : Draft} {fn : Func} (hf : fn.Finished) (hp : fn.Presentable)
    (h : d.Shows fn) : IsBody d.lines := by
  have hlabel : ∀ label : Text, label ++ Text.ofString ":" ≠ Text.ofString "func" := by
    intro label he
    have hsome := Text.dropSuffix?_append (Text.ofString ":") label
    have hnone : Text.dropSuffix? (Text.ofString ":") (Text.ofString "func") = none := by decide
    rw [he, hnone] at hsome
    cases hsome
  intro l hl hfunc
  have hl : l.tokens ∈ fn.bodyTokens := by
    rw [← h.2]
    exact List.mem_map_of_mem (List.mem_reverse.mpr hl)
  obtain ⟨b, hb, hl⟩ := List.mem_flatMap.mp hl
  rcases List.mem_cons.mp hl with hl | hl
  · rw [hl] at hfunc
    exact hlabel b.label (Option.some.inj hfunc)
  · obtain ⟨v, hv, he⟩ := List.mem_map.mp hl
    have hmem := hf.mem_printed.mp (List.mem_flatMap.mpr ⟨b, hb, hv⟩)
    rw [← he] at hfunc
    exact hp.head?_valueTokens hf hmem hfunc

theorem forall₂_toFunc_iff {file : Text} {ds : List Draft} {fns fns' : List Func}
    (hds : List.Forall₂ Draft.Shows ds fns) (hf : ∀ fn ∈ fns, fn.Finished ∧ fn.Presentable) :
    List.Forall₂ (fun d fn => Draft.toFunc file d = .ok fn) ds fns' ↔
      (∀ fn ∈ fns, fn.DistinctNames) ∧ fns' = fns.map (·.renumbered) := by
  induction hds generalizing fns' with
  | nil => simp
  | @cons d fn ds fns hd hds ih =>
    obtain ⟨⟨hfin, hpres⟩, hf⟩ := List.forall_mem_cons.mp hf
    rw [List.forall₂_cons_left_iff]
    simp only [hfin.toFunc_eq_ok_iff hpres hd.1 hd.2, ih hf]
    constructor
    · rintro ⟨_, _, ⟨hfn, rfl⟩, ⟨hfns, rfl⟩, rfl⟩
      exact ⟨List.forall_mem_cons.mpr ⟨hfn, hfns⟩, rfl⟩
    · rintro ⟨hall, rfl⟩
      obtain ⟨hfn, hfns⟩ := List.forall_mem_cons.mp hall
      exact ⟨_, _, ⟨hfn, rfl⟩, ⟨hfns, rfl⟩, rfl⟩

theorem listings?_eq {fns : List Func} (hf : ∀ fn ∈ fns, fn.Finished) :
    listings? fns = some ((fns.flatMap Func.lines).flatMap (· ++ Text.ofString "\n")) := by
  have hall := mapM_eq_pure fun fn hfn => (hf fn hfn).listing?_eq
  rw [listings?, hall, List.flatMap_assoc, List.flatMap_def]
  rfl

theorem spells_sources {fns : List Func} (hf : ∀ fn ∈ fns, fn.Finished ∧ fn.Presentable) :
    List.Forall₂ Spells (fns.flatMap Func.lines)
      (fns.flatMap fun fn => [Text.ofString "func", fn.name] :: fn.bodyTokens) :=
  forall₂_flatMap fun fn hfn => (hf fn hfn).2.spells_lines (hf fn hfn).1

/-- When listings are read, and as what. -/
theorem parse_listings_iff {fns : List Func} (hf : ∀ fn ∈ fns, fn.Finished ∧ fn.Presentable)
    {text : Text} (ht : listings? fns = some text) {file : Text} {fns' : List Func} :
    parse file text = .ok fns' ↔ (∀ l ∈ rawLines text, l.length < maxLine) ∧
      (∀ fn ∈ fns, fn.DistinctNames) ∧ fns' = fns.map (·.renumbered) := by
  have hspells := spells_sources hf
  have hraw : rawLines text = fns.flatMap Func.lines := by
    rw [listings?_eq fun fn hfn => (hf fn hfn).1] at ht
    rw [← Option.some.inj ht]
    exact rawLines_flatMap (newline_not_mem_spelled hspells)
  have hne : ∀ ts ∈ fns.flatMap fun fn => [Text.ofString "func", fn.name] :: fn.bodyTokens,
      ts ≠ [] := by
    intro ts hts
    obtain ⟨fn, -, hts⟩ := List.mem_flatMap.mp hts
    rcases List.mem_cons.mp hts with rfl | hts
    · simp
    · exact Func.ne_nil_of_mem_bodyTokens hts
  obtain ⟨ds, hsource, hds⟩ := exists_shows (tokens_numbered hspells hne)
  have hbody : ∀ d ∈ ds, IsBody d.lines := by
    intro d hd
    obtain ⟨fn, hfn, hshows⟩ := exists_of_mem_left hds hd
    exact isBody_of_shows (hf fn hfn).1 (hf fn hfn).2 hshows
  have hclose : Progress.close file {} = .ok [] := rfl
  rw [parse_eq_ok_iff, hraw, hsource, foldlM_step_sources hbody]
  simp only [hclose, forall₂_toFunc_iff hds hf]
  constructor
  · rintro ⟨hshort, _, _, ⟨⟩, ⟨hdistinct, rfl⟩, he⟩
    rw [List.append_nil, List.reverse_inj] at he
    exact ⟨hshort, hdistinct, he⟩
  · rintro ⟨hshort, hdistinct, rfl⟩
    exact ⟨hshort, [], _, rfl, ⟨hdistinct, rfl⟩, by simp⟩

/-- A listing is read as the function it shows, with the values renumbered in the order in which
they are shown. -/
theorem parseOne_listing {fn : Func} (hb : fn.Built) (hp : fn.Presentable)
    (hd : fn.DistinctNames) :
    ∃ text, fn.listing? = some text ∧
      ((∀ line ∈ rawLines text, line.length < maxLine) →
        ∀ file, parseOne file text = .ok fn.renumbered) ∧
      fn.renumbered.printOrder = (List.range fn.values.length).map (↑) ∧
      ∀ v ∈ fn.values, fn.renumbered.value? (fn.place v.id) = some (fn.renumberedValue v) := by
  have hf := hb.finished
  refine ⟨_, hf.listing?_eq, fun hshort file => ?_, ?_, fun v hv => ?_⟩
  · have hall : ∀ g ∈ [fn], g.Finished ∧ g.Presentable := by simpa using ⟨hf, hp⟩
    have htext : listings? [fn] = some (fn.lines.flatMap (· ++ Text.ofString "\n")) := by
      rw [listings?_eq fun g hg => (hall g hg).1, List.flatMap_singleton]
    have hparse : parse file _ = .ok [fn.renumbered] :=
      (parse_listings_iff hall htext).mpr ⟨hshort, by simpa using hd, rfl⟩
    rw [parseOne, hparse]
    rfl
  · rw [fn.renumbered_printOrder, hf.map_place_printOrder]
  · rw [hf.renumbered_value? (hf.mem_printOrder hv), hf.value?_of_mem hv]
    rfl

/-- The last block is filled first, and its φ-node comes behind the instruction that uses it. -/
def shuffledCalls : List Builder.Call :=
  [.block "", .block "done", .setBlock 1, .ret [.value 1], .phi [⟨0, .value 2⟩], .setBlock 0,
    .emit .addI32 [.literal (.ofInt 3), .literal (.ofInt (-1))], .setName 2 "sum", .jmp 1]

def shuffledText : Text :=
  "func shuffled\nb0:\n\tsum = add.i32 i32:3, i32:-1\n\tjmp done\n" ++
    "done:\n\tv1 = phi [b0: sum]\n\tret v1\n"

def shuffledFunc : Func := (Func.ofCalls? "shuffled" shuffledCalls).get (by decide +kernel)

theorem presentable_shuffled : shuffledFunc.Presentable := by
  refine ⟨by decide +kernel, by decide +kernel, by decide +kernel, by decide +kernel,
    by decide +kernel, fun v hv lit hlit => ?_⟩
  have hoperand : ∀ v ∈ shuffledFunc.values, ∀ o ∈ v.operands, o = .value 1 ∨ o = .value 2 ∨
      o = .literal (.ofInt 3) ∨ o = .literal (.ofInt (-1)) := by decide +kernel
  rcases hoperand v hv _ hlit with h | h | h | h <;> cases h
  · exact ⟨"i32:3", by decide⟩
  · exact ⟨"i32:-1", by decide⟩

theorem parseOne_listing_shuffled :
    shuffledFunc.Built ∧ shuffledFunc.Presentable ∧ shuffledFunc.DistinctNames ∧
      shuffledFunc.listing? = some shuffledText ∧
      parseOne "in" shuffledText = .ok shuffledFunc.renumbered ∧
      shuffledFunc.printOrder = [2, 3, 1, 0] := by
  have hbuilt : shuffledFunc.Built := Func.built_of_ofCalls? (Option.some_get _).symm
  have hdistinct : shuffledFunc.DistinctNames := by decide +kernel
  have htext : shuffledFunc.listing? = some shuffledText := by decide +kernel
  obtain ⟨text, hlisting, hparse, -⟩ := parseOne_listing hbuilt presentable_shuffled hdistinct
  obtain rfl : shuffledText = text := Option.some.inj (htext.symm.trans hlisting)
  exact ⟨hbuilt, presentable_shuffled, hdistinct, htext, hparse (by decide +kernel) "in",
    by decide +kernel⟩

/-- What was read and listed is read again just when no two values of a function are shown under one
name and all lines are short enough, and is then listed as before. -/
theorem parse_listings_of_parse {file src : Text} {fns : List Func}
    (h : parse file src = .ok fns) :
    ∃ text, listings? fns = some text ∧ ∀ file',
      ((∃ fns', parse file' text = .ok fns') ↔
        (∀ line ∈ rawLines text, line.length < maxLine) ∧ ∀ fn ∈ fns, fn.DistinctNames) ∧
      ∀ fns', parse file' text = .ok fns' →
        fns'.length = fns.length ∧ listings? fns' = some text := by
  have hf : ∀ fn ∈ fns, fn.Finished ∧ fn.Presentable :=
    fun fn hfn => ⟨(parse_built h fn hfn).finished, parse_presentable h fn hfn⟩
  have htext := listings?_eq fun fn hfn => (hf fn hfn).1
  refine ⟨_, htext, fun file' => ⟨?_, fun fns' h' => ?_⟩⟩
  · simp only [parse_listings_iff hf htext]
    constructor
    · rintro ⟨_, hshort, hdistinct, -⟩
      exact ⟨hshort, hdistinct⟩
    · rintro ⟨hshort, hdistinct⟩
      exact ⟨_, hshort, hdistinct, rfl⟩
  · obtain ⟨-, -, rfl⟩ := (parse_listings_iff hf htext).mp h'
    have hlines : (fns.map (·.renumbered)).flatMap Func.lines = fns.flatMap Func.lines := by
      rw [List.flatMap_map]
      exact List.flatMap_congr fun fn hfn => (hf fn hfn).1.renumbered_lines
    rw [List.length_map, listings?_eq fun fn hfn => (parse_built h' fn hfn).finished, hlines]
    exact ⟨rfl, rfl⟩

/-- Comments, blanks and spellings that a listing does not keep, and a φ-node behind the branch of
its block. -/
def looseSource : Text :=
  "# two functions\nfunc f\r\nentry:\n\tx=arg i32:0x1_0 # the argument\n\tjmp loop\nloop:\n" ++
    "\tbr y,loop,done\n\ty = phi [entry: x],[loop: y]\ndone:\narg f64:1e3\n\tret x,y\n" ++
    "func g\nb:\n\tret"

def strictText : Text :=
  "func f\nentry:\n\tx = arg i32:16\n\tjmp loop\nloop:\n\ty = phi [entry: x], [loop: y]\n" ++
    "\tbr y, loop, done\ndone:\n\tv4 = arg f64:1000\n\tret x, y\nfunc g\nb:\n\tret\n"

def looseFuncs : List Func := (parse "in" looseSource).toOption.get (by decide +kernel)

theorem parse_listings_of_parse_loose : parse "in" looseSource = .ok looseFuncs ∧
    listings? looseFuncs = some strictText ∧ ∃ fns, parse "out" strictText = .ok fns ∧
      fns.length = 2 ∧ listings? fns = some strictText := by
  have hparse : parse "in" looseSource = .ok looseFuncs := by decide +kernel
  have htext : listings? looseFuncs = some strictText := by decide +kernel
  obtain ⟨text, hlistings, hagain⟩ := parse_listings_of_parse hparse
  obtain rfl : strictText = text := Option.some.inj (htext.symm.trans hlistings)
  obtain ⟨hiff, hsame⟩ := hagain "out"
  obtain ⟨fns, hfns⟩ := hiff.mpr ⟨by decide +kernel, by decide +kernel⟩
  have hlength : looseFuncs.length = 2 := by decide +kernel
  exact ⟨hparse, htext, fns, hfns, (hsame fns hfns).1.trans hlength, (hsame fns hfns).2⟩

/-- The value without a name is shown under the name that another value was given. -/
theorem parse_listings_clash :
    (parse "in" "func f\ne:\n\tv1 = arg i32:0\n\targ i32:1\n\tret\n").toOption.bind listings?
      = some "func f\ne:\n\tv1 = arg i32:0\n\tv1 = arg i32:1\n\tret\n" ∧
    parse "in" "func f\ne:\n\tv1 = arg i32:0\n\tv1 = arg i32:1\n\tret\n"
      = .error (.line "in" 4 (.redefined "v1")) := by
  decide +kernel

end Source

end TypeFlow
