import Mathlib.Data.List.Basic
import JavaClass.Container.Write

/-!
# Places of paths

The place that a path names if its dots are taken as words: a single dot is
where it stands, and two dots are one directory up. A relative path comes down
to a route, which goes up some directories and then down along names.

## Implementation notes

Above the root of all places there is the root again, so a route can go up
further than there are directories.
-/

namespace JavaClass

namespace Path

/-- The place after one more component. -/
def step (place : List String) (component : String) : List String :=
  if isHere component then place
  else if isAbove component then place.dropLast
  else place ++ [component]

/-- The place that components lead to from a place. -/
def placeFrom (place components : List String) : List String :=
  components.foldl step place

/-- The place that a path leads to, given the place where relative paths start. -/
def place (working : List String) (path : String) : List String :=
  placeFrom (if isAbsolute path then [] else working) (components path)

variable {working first second : List String} {component directory path : String}

theorem step_of_name (notHere : isHere component = false) (notAbove : isAbove component = false)
    (place : List String) : step place component = place ++ [component] := by
  rw [step, notHere, notAbove]
  rfl

theorem place_empty (working : List String) : place working "" = working := rfl

theorem placeFrom_append (place first second : List String) :
    placeFrom place (first ++ second) = placeFrom (placeFrom place first) second :=
  List.foldl_append

/-- A slash stands between the components before it and those behind it. -/
theorem components_slash (first second : String) :
    components (first ++ "/" ++ second) = components first ++ components second := by
  have chars : (first ++ "/" ++ second).toList = first.toList ++ '/' :: second.toList := by
    simp [String.toList_append]
  rw [components, chars, List.splitOn, List.splitOnP_append_cons _ _ (by simp), List.map_append]
  rfl

theorem components_of_no_slash (h : '/' ∉ path.toList) : components path = [path] := by
  rw [components, List.splitOn_eq_singleton h, List.map_singleton, String.ofList_toList]

/-- A path with a slash ends in what follows the last one. -/
theorem exists_last_slash (h : '/' ∈ path.toList) :
    ∃ before last, path = before ++ "/" ++ last ∧ '/' ∉ last.toList := by
  obtain ⟨last, before, split, none⟩ := List.eq_append_cons_of_mem (List.mem_reverse.mpr h)
  refine ⟨String.ofList before.reverse, String.ofList last.reverse, String.toList_injective ?_, ?_⟩
  · have reversed := congrArg List.reverse split
    simpa [String.toList_append] using reversed
  · rw [String.toList_ofList]
    exact fun mem => none (List.mem_reverse.mp mem)

theorem isAbsolute_append (ne : directory ≠ "") (more : String) :
    isAbsolute (directory ++ more) = isAbsolute directory := by
  have ne : directory.toList ≠ [] := fun h => ne (String.toList_injective h)
  rw [isAbsolute, isAbsolute, String.toList_append, List.head?_append_of_ne_nil _ ne]

theorem exists_eq_append_slash (ends : endsWithSlash directory = true) :
    ∃ above, directory = above ++ "/" := by
  obtain ⟨chars, h⟩ := List.getLast?_eq_some_iff.mp (eq_of_beq ends)
  refine ⟨String.ofList chars, String.toList_injective ?_⟩
  rw [h, String.toList_append, String.toList_ofList]
  rfl

theorem placeFrom_components_slash (place : List String) (above : String) :
    placeFrom place (components (above ++ "/")) = placeFrom place (components above) := by
  have h := components_slash above ""
  rw [String.append_empty] at h
  rw [h, placeFrom_append]
  rfl

/-- Joining a relative path goes on from the place of the directory. -/
theorem place_join (relative : isAbsolute path = false) (working : List String)
    (directory : String) :
    place working (join directory path) =
      placeFrom (place working directory) (components path) := by
  unfold join
  by_cases empty : directory = ""
  · simp only [empty, relative, beq_self_eq_true, Bool.or_true, if_true]
    rw [place, relative]
    rfl
  · simp only [relative, beq_eq_false_iff_ne.mpr empty, Bool.or_false, Bool.false_eq_true, if_false]
    split
    · rename_i ends
      obtain ⟨above, rfl⟩ := exists_eq_append_slash ends
      rw [place, place, isAbsolute_append empty, components_slash, placeFrom_append,
        placeFrom_components_slash]
    · rw [place, place, String.append_assoc, isAbsolute_append empty, ← String.append_assoc,
        components_slash, placeFrom_append]

/-- Joining an absolute path leaves the directory out. -/
theorem place_join_absolute (absolute : isAbsolute path = true) (working : List String)
    (directory : String) :
    place working (join directory path) = placeFrom [] (components path) := by
  rw [join, absolute, Bool.true_or, if_pos rfl, place, absolute, if_pos rfl]

/-- So many directories up, and then down along names. -/
structure Route where
  climbs : Nat
  names : List String
  deriving DecidableEq, Repr

namespace Route

/-- The route with one more component. -/
def step (route : Route) (component : String) : Route :=
  if isHere component then route
  else if isAbove component then
    if route.names.isEmpty then ⟨route.climbs + 1, []⟩
    else { route with names := route.names.dropLast }
  else { route with names := route.names ++ [component] }

/-- The route of components. -/
def ofComponents (components : List String) : Route :=
  components.foldl step ⟨0, []⟩

/-- Where a route leads to from a place. -/
def lead (route : Route) (place : List String) : List String :=
  place.take (place.length - route.climbs) ++ route.names

theorem lead_nil (route : Route) : route.lead [] = route.names := by
  rw [lead, List.take_nil, List.nil_append]

theorem lead_step (route : Route) (place : List String) (component : String) :
    (route.step component).lead place = Path.step (route.lead place) component := by
  unfold step Path.step
  split
  · rfl
  · split
    · split
      · rename_i none
        have up : min (min (place.length - route.climbs) place.length - 1)
            (place.length - route.climbs) = place.length - (route.climbs + 1) := by omega
        rw [lead, lead, List.isEmpty_iff.mp none, List.append_nil, List.append_nil,
          List.dropLast_eq_take, List.take_take, List.length_take, up]
      · rename_i some
        rw [lead, lead, List.dropLast_append_of_ne_nil (by simpa using some)]
    · rw [lead, lead, List.append_assoc]

end Route

/-- Components lead from every place to where their route leads. -/
theorem placeFrom_eq_lead (place components : List String) :
    placeFrom place components = (Route.ofComponents components).lead place := by
  have walk (route : Route) : placeFrom (route.lead place) components =
      (components.foldl Route.step route).lead place := by
    induction components generalizing route with
    | nil => rfl
    | cons component rest ih =>
        rw [List.foldl_cons, ← ih, Route.lead_step]
        rfl
  have start := walk ⟨0, []⟩
  rwa [Route.lead, List.append_nil, Nat.sub_zero, List.take_length] at start

end Path

end JavaClass
