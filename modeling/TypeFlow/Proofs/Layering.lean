import Mathlib.Data.List.Induction
import TypeFlow.Config.Lookup
import TypeFlow.Proofs.Traversal

/-! What a chain of layers comes to. Of each setting the innermost definition is in force, and lists
are built up from the outermost layer to the innermost one. As the standard lists are empty, no
`inherit` is left when the lists are brought into normal form, so this never fails. -/

namespace TypeFlow

namespace Text

theorem le_iff {a b : Text} : le a b = true ↔ a ≤ b := decide_eq_true_iff

theorem lt_of_le_of_ne {a b : Text} (h : a ≤ b) (hne : a ≠ b) : a < b :=
  List.not_le.mp fun hba => hne (List.le_antisymm h hba)

theorem pairwise_mergeSort (l : List Text) : (l.mergeSort le).Pairwise (· ≤ ·) := by
  refine (List.pairwise_mergeSort ?_ ?_ l).imp le_iff.mp
  · intro a b c hab hbc
    exact le_iff.mpr (List.le_trans (le_iff.mp hab) (le_iff.mp hbc))
  · intro a b
    rw [Bool.or_eq_true, le_iff, le_iff]
    exact List.le_total a b

end Text

namespace Config

/-- The values of the innermost of some layers, the outermost first, that defines a setting, or the
standard ones. -/
def inForce (s : Setting) (layers : List Layer) : Config :=
  ((layers.reverse.find? (·.defined.contains s)).map (·.values)).getD standard

/-- A list with the list so far for every `inherit`. -/
def filled (soFar : List Text) : List Text → List Text
  | [] => []
  | e :: rest => if e = "inherit" then soFar ++ filled soFar rest else e :: filled soFar rest

/-- The list that is built up by the layers, the outermost first, that define a setting. -/
def builtUp (s : Setting) (list : Config → List Text) (layers : List Layer) : List Text :=
  ((layers.filter (·.defined.contains s)).map fun layer => list layer.values).foldl filled []

/-- The normal form of a list is `all` alone if the list has it, and else has the same elements in
strictly ascending order. -/
structure IsNormal (list normal : List Text) : Prop where
  all : ("all" : Text) ∈ list → normal = [("all" : Text)]
  ascending : ("all" : Text) ∉ list → normal.Pairwise (· < ·)
  mem_iff : ("all" : Text) ∉ list → ∀ e, e ∈ normal ↔ e ∈ list

/-- What layers come to, the outermost first. -/
structure Resolves (layers : List Layer) (c : Config) : Prop where
  target : c.target = (inForce .target layers).target
  branchSuccessors : c.branchSuccessors = (inForce .branchSuccessors layers).branchSuccessors
  checkMonotonic : c.checkMonotonic = (inForce .checkMonotonic layers).checkMonotonic
  debug : c.debug = (inForce .debug layers).debug
  enabled : IsNormal (builtUp .enabled (·.enabled) layers) c.enabled
  disabled : IsNormal (builtUp .disabled (·.disabled) layers) c.disabled

theorem mergeLists_eq_filled (below list : List Text) :
    mergeLists below list = filled below list := by
  induction list with
  | nil => rfl
  | cons e rest ih =>
    unfold filled
    rw [← ih]
    change (if e = "inherit" then below else [e]) ++ mergeLists below rest = _
    split <;> rfl

theorem inherit_not_mem_filled {soFar : List Text} (h : ("inherit" : Text) ∉ soFar)
    (list : List Text) : ("inherit" : Text) ∉ filled soFar list := by
  induction list with
  | nil => exact List.not_mem_nil
  | cons e rest ih =>
    unfold filled
    split
    · simp [h, ih]
    · next hne => simp [Ne.symm hne, ih]

theorem inherit_not_mem_builtUp (s : Setting) (list : Config → List Text) (layers : List Layer) :
    ("inherit" : Text) ∉ builtUp s list layers := by
  unfold builtUp
  -- The list so far never has an `inherit`, as it starts empty.
  refine List.foldlRecOn (motive := fun soFar => ("inherit" : Text) ∉ soFar) _ filled
    List.not_mem_nil fun soFar h next _ => ?_
  exact inherit_not_mem_filled h next

/-- A setting that each layer defines or leaves alone is that of the last layer that defines it. -/
theorem foldl_merge_scalar {α : Type} (s : Setting) (get : Config → α)
    (hget : ∀ c layer, get (merge c layer) =
      if layer.defined.contains s then get layer.values else get c) (layers : List Layer) :
    get (layers.foldl merge standard) = get (inForce s layers) := by
  induction layers using List.reverseRecOn with
  | nil => rfl
  | append_singleton layers layer ih =>
    rw [List.foldl_append, List.foldl_cons, List.foldl_nil, hget, ih]
    unfold inForce
    rw [List.reverse_append, List.reverse_singleton, List.singleton_append, List.find?_cons]
    cases layer.defined.contains s <;> rfl

theorem foldl_merge_list (s : Setting) (list : Config → List Text)
    (hlist : ∀ c layer, list (merge c layer) =
      if layer.defined.contains s then mergeLists (list c) (list layer.values) else list c)
    (hstandard : list standard = []) (layers : List Layer) :
    list (layers.foldl merge standard) = builtUp s list layers := by
  induction layers using List.reverseRecOn with
  | nil => exact hstandard
  | append_singleton layers layer ih =>
    rw [List.foldl_append, List.foldl_cons, List.foldl_nil, hlist, ih, mergeLists_eq_filled]
    unfold builtUp
    rw [List.filter_append, List.map_append, List.foldl_append, List.filter_cons, List.filter_nil]
    cases layer.defined.contains s <;> rfl

theorem mem_dropRepeats {x : Text} {l : List Text} : x ∈ dropRepeats l ↔ x ∈ l := by
  fun_induction dropRepeats l with
  | case1 a rest ih => simp [ih]
  | case2 a b rest hne ih => rw [List.mem_cons, ih, List.mem_cons (b := a)]
  | case3 l h => rfl

theorem pairwise_dropRepeats {l : List Text} (h : l.Pairwise (· ≤ ·)) :
    (dropRepeats l).Pairwise (· < ·) := by
  fun_induction dropRepeats l with
  | case1 a rest ih => exact ih (List.pairwise_cons.mp h).2
  | case2 a b rest hne ih =>
    obtain ⟨hfirst, hrest⟩ := List.pairwise_cons.mp h
    refine List.pairwise_cons.mpr ⟨fun x hx => ?_, ih hrest⟩
    have hab : a < b := Text.lt_of_le_of_ne (hfirst b List.mem_cons_self) hne
    rcases List.mem_cons.mp (mem_dropRepeats.mp hx) with rfl | hx
    · exact hab
    · exact Std.lt_of_lt_of_le hab ((List.pairwise_cons.mp hrest).1 x hx)
  | case3 l hl =>
    rcases l with _ | ⟨a, _ | ⟨b, rest⟩⟩
    · exact .nil
    · exact List.pairwise_singleton _ a
    · exact absurd rfl (hl a b rest)

/-- A list that no `inherit` is left in has a normal form. -/
theorem exists_normalList {list : List Text} (h : ("inherit" : Text) ∉ list) :
    ∃ normal, normalList list = .ok normal ∧ IsNormal list normal := by
  unfold normalList
  have hmem : ∀ e, e ∈ dropRepeats (list.mergeSort Text.le) ↔ e ∈ list := fun e =>
    mem_dropRepeats.trans List.mem_mergeSort
  have hlt := pairwise_dropRepeats (Text.pairwise_mergeSort list)
  generalize dropRepeats (list.mergeSort Text.le) = sorted at hmem hlt
  cases hfind : sorted.find? fun (e : Text) => e = "inherit" || e = "all" with
  | none =>
    have hall : ("all" : Text) ∉ list := by
      intro hm
      simpa using List.find?_eq_none.mp hfind _ ((hmem _).mpr hm)
    exact ⟨sorted, by simp only [hfind], fun hm => absurd hm hall, fun _ => hlt, fun _ => hmem⟩
  | some e =>
    have he : e ∈ list := (hmem e).mp (List.mem_of_find?_eq_some hfind)
    have hword : e = "inherit" ∨ e = "all" := by simpa using List.find?_some hfind
    rcases hword with rfl | rfl
    · exact absurd he h
    · exact ⟨_, by simp only [hfind, if_true], fun _ => rfl, fun hm => absurd he hm,
        fun hm => absurd he hm⟩

theorem exists_normalList_merged (s : Setting) (list : Config → List Text)
    (hlist : ∀ c layer, list (merge c layer) =
      if layer.defined.contains s then mergeLists (list c) (list layer.values) else list c)
    (hstandard : list standard = []) (layers : List Layer) :
    ∃ out, normalList (list (layers.foldl merge standard)) = .ok out ∧
      IsNormal (builtUp s list layers) out := by
  rw [foldl_merge_list s list hlist hstandard]
  exact exists_normalList (inherit_not_mem_builtUp s list layers)

/-- Layers always merge over the standard configuration, into what they come to. -/
theorem exists_mergeAll (layers : List Layer) :
    ∃ c, mergeAll ({ values := standard } :: layers) = .ok c ∧ Resolves layers c := by
  obtain ⟨enabled, henabled, hnormal⟩ :=
    exists_normalList_merged .enabled (·.enabled) (fun _ _ => rfl) rfl layers
  obtain ⟨disabled, hdisabled, hnormal'⟩ :=
    exists_normalList_merged .disabled (·.disabled) (fun _ _ => rfl) rfl layers
  refine ⟨{ layers.foldl merge standard with enabled, disabled }, ?_, ?_⟩
  · change normal (layers.foldl merge standard) = _
    unfold normal
    rw [henabled, hdisabled]
    rfl
  · exact
      { target := foldl_merge_scalar .target (·.target) (fun _ _ => rfl) layers
        branchSuccessors :=
          foldl_merge_scalar .branchSuccessors (·.branchSuccessors) (fun _ _ => rfl) layers
        checkMonotonic :=
          foldl_merge_scalar .checkMonotonic (·.checkMonotonic) (fun _ _ => rfl) layers
        debug := foldl_merge_scalar .debug (·.debug) (fun _ _ => rfl) layers
        enabled := hnormal
        disabled := hnormal' }

theorem layerAt_ne_unmerged (look : Files.Look Id) (path : Text) (fault : Fault) :
    (layerAt look path).run ≠ .error (.unmerged fault) := by
  intro h
  rcases exceptT_bind_eq_error.mp h with hlook | ⟨found, -, hfound⟩
  · cases hlook
  · split at hfound
    · cases hfound
    · cases hfound
    · cases hfound
    · split at hfound <;> cases hfound

theorem layersUp_ne_unmerged (look : Files.Look Id) (steps : Nat) (folder : Text) (fault : Fault) :
    (layersUp look steps folder).run ≠ .error (.unmerged fault) := by
  induction steps generalizing folder with
  | zero =>
    intro h
    cases h
  | succ steps ih =>
    intro h
    unfold layersUp at h
    split at h
    · cases h
    · rcases exceptT_bind_eq_error.mp h with hlayer | ⟨layer, -, hrest⟩
      · exact layerAt_ne_unmerged look _ fault hlayer
      · dsimp only at hrest
        split at hrest
        · cases hrest
        · rcases exceptT_bind_eq_error.mp hrest with habove | ⟨rest, -, hdone⟩
          · exact ih _ habove
          · cases hdone

/-- Any layers over the standard configuration come to a configuration, and it is the one that is
found for a text and for a folder. Both fail only where a layer cannot be read: that an `inherit` is
left, or that there is nothing to merge, never happens. -/
theorem layers_resolve : ∃ resolve : List Layer → Config,
    (∀ layers, Resolves layers (resolve layers)) ∧
    (∀ layers, mergeAll ({ values := standard } :: layers) = .ok (resolve layers)) ∧
    (∀ text, parse text =
      ((Layer.read text).mapError (.flawed [])).map fun layer => resolve [layer]) ∧
    (∀ {m : Type → Type} [Monad m] (look : Files.Look m) folder, load look folder = do
      let layers ← layersUp look (folder.length + 2) folder
      return resolve layers.reverse) ∧
    (∀ (look : Files.Look Id) folder fault, (load look folder).run ≠ .error (.unmerged fault)) := by
  choose resolve hmerge hresolves using exists_mergeAll
  have hload : ∀ {m : Type → Type} [Monad m] (look : Files.Look m) folder, load look folder = do
      let layers ← layersUp look (folder.length + 2) folder
      return resolve layers.reverse := by
    intro m _ look folder
    unfold load ofLayers
    simp only [hmerge]
    rfl
  refine ⟨resolve, hresolves, hmerge, fun text => ?_, hload, fun look folder fault h => ?_⟩
  · unfold parse ofLayers
    cases Layer.read text with
    | error flaw => rfl
    | ok layer => simp only [List.reverse_singleton, hmerge, Except.mapError, Except.map]
  · rw [hload] at h
    rcases exceptT_bind_eq_error.mp h with hlayers | ⟨layers, -, hdone⟩
    · exact layersUp_ne_unmerged look _ folder fault hlayers
    · cases hdone

/-- The inner layer takes over the outer list twice, and does not define the target it has. -/
example : (mergeAll [{ values := standard },
      { values := { enabled := ["not", "add"], debug := true }, defined := [.enabled, .debug] },
      { values := { target := "wide", enabled := ["inherit", "mul", "inherit"],
                    disabled := ["not", "all"] },
        defined := [.enabled, .disabled] }]).toOption =
    some
      { standard with enabled := ["add", "mul", "not"], disabled := ["all"], debug := true } := by
  cbv

end Config

end TypeFlow
