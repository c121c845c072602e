import JackTree.Proofs.SearchDepth
import Mathlib.Logic.Function.Iterate

/-!
# Searching a directory

A search keeps a stack of the paths that it has still to look at, and remembers the paths that
it has met, so that it looks at each once.  `Search.Explores.step` says what every step keeps,
`Search.exists_iterate_step` that everything on the stack is done with at some time, and
`discovery_is_exact` that the search comes to the files that there are, in whatever order and
how often directories list their entries.
-/

namespace JackTree

open FileStore

variable {view : DirectoryView} {path input file other : Path} {name : String}
  {names : List String} {recursive : Bool} {depth : Nat} {listing : Path → List String}

/-- A search on its way. -/
structure Search where
  /-- The paths to look at, the next one first, and how deep they lie. -/
  stack : List (Path × Nat)
  visited : List Path
  files : List Path

/-- Puts a path into a set of paths, unless it is there. -/
def Path.insertNew (path : Path) (paths : List Path) : List Path :=
  if paths.any fun other => decide (other.Same path) then paths else path :: paths

theorem Path.any_same_iff {paths : List Path} :
    (paths.any fun other => decide (other.Same path)) = true ↔
      ∃ other ∈ paths, other.Same path := by
  simp only [List.any_eq_true, decide_eq_true_eq]

namespace Search

def start (input : Path) : Search :=
  ⟨[(input, 0)], [], []⟩

/-- Looks at the next path.  The entries of a directory are put on the stack one by one. -/
def step (view : DirectoryView) (recursive : Bool) (search : Search) : Search :=
  match search.stack with
  | [] => search
  | (path, depth) :: stack =>
    if search.visited.any fun other => decide (other.Same path) then { search with stack := stack }
    else if view.isFile path then
      ⟨stack, path :: search.visited, path.insertNew search.files⟩
    else if view.isDirectory path && (depth == 0 || recursive) then
      ⟨(view.names path).foldl (fun stack name => (path.child name, depth + 1) :: stack) stack,
        path :: search.visited, search.files⟩
    else ⟨stack, path :: search.visited, search.files⟩

/-- What comes on the stack when a path is looked at. -/
def opened (view : DirectoryView) (recursive : Bool) (path : Path) (depth : Nat) :
    List (Path × Nat) :=
  if view.isFile path then []
  else if view.isDirectory path && (depth == 0 || recursive) then
    ((view.names path).map fun name => (path.child name, depth + 1)).reverse
  else []

theorem mem_opened_iff {entry : Path × Nat} : entry ∈ opened view recursive path depth ↔
    view.isFile path = false ∧ view.isDirectory path = true ∧ (depth = 0 ∨ recursive = true) ∧
      ∃ name ∈ view.names path, entry = (path.child name, depth + 1) := by
  unfold opened
  split
  next hfile => simp [hfile]
  next hfile =>
    split
    next hopen =>
      simp only [Bool.and_eq_true, Bool.or_eq_true, beq_iff_eq] at hopen
      simp [hfile, hopen, eq_comm]
    next hclosed =>
      simp only [Bool.and_eq_true, Bool.or_eq_true, beq_iff_eq, not_and] at hclosed
      simp only [List.not_mem_nil, false_iff]
      exact fun h => hclosed h.2.1 h.2.2.1

theorem step_cons (stack : List (Path × Nat)) (visited files : List Path) :
    step view recursive ⟨(path, depth) :: stack, visited, files⟩ =
      if visited.any fun other => decide (other.Same path) then ⟨stack, visited, files⟩
      else ⟨opened view recursive path depth ++ stack, path :: visited,
        if view.isFile path then path.insertNew files else files⟩ := by
  simp only [step]
  split
  next => rfl
  next =>
    unfold opened
    split
    next => rfl
    next =>
      split
      next => rw [List.foldl_flip_cons_eq_append]
      next => rfl

/-! ## The search ends -/

/-- A path on the stack is done with at some time, with everything below it. -/
theorem exists_iterate_step (hends : view.EndsBelow path) (recursive : Bool) (depth : Nat)
    (stack : List (Path × Nat)) (visited files : List Path) :
    ∃ steps met found, (step view recursive)^[steps] ⟨(path, depth) :: stack, visited, files⟩ =
      ⟨stack, met, found⟩ := by
  induction hends generalizing depth stack visited files with
  | @intro path hchildren ih =>
      have hentries : ∀ (entries : List (Path × Nat)) (visited files : List Path),
          (∀ entry ∈ entries, entry ∈ opened view recursive path depth) →
            ∃ steps met found, (step view recursive)^[steps] ⟨entries ++ stack, visited, files⟩ =
              ⟨stack, met, found⟩ := by
        intro entries
        induction entries with
        | nil => exact fun visited files _ => ⟨0, visited, files, rfl⟩
        | cons entry rest ihRest =>
            intro visited files hopened
            obtain ⟨hentry, hrest⟩ := List.forall_mem_cons.mp hopened
            obtain ⟨hfile, hdirectory, -, name, hname, rfl⟩ := mem_opened_iff.mp hentry
            obtain ⟨first, met, found, hfirst⟩ :=
              ih hfile hdirectory name hname (depth + 1) (rest ++ stack) visited files
            obtain ⟨later, last, all, hlater⟩ := ihRest met found hrest
            exact ⟨later + first, last, all, by
              rw [Function.iterate_add_apply, List.cons_append, hfirst, hlater]⟩
      by_cases hmet : (visited.any fun other => decide (other.Same path)) = true
      · exact ⟨1, visited, files, by rw [Function.iterate_one, step_cons, if_pos hmet]⟩
      · obtain ⟨steps, met, found, hsteps⟩ := hentries (opened view recursive path depth)
          (path :: visited) (if view.isFile path then path.insertNew files else files)
          fun _ => id
        exact ⟨steps + 1, met, found, by
          rw [Function.iterate_add_apply, Function.iterate_one, step_cons, if_neg hmet, hsteps]⟩

/-! ## What a search keeps -/

/-- So many names lead from the input to a path, and the search may go that deep. -/
def Reached (view : DirectoryView) (recursive : Bool) (input path : Path) (depth : Nat) : Prop :=
  ∃ names, view.LeadsOn input names ∧ names.length = depth ∧ (recursive = true ∨ depth ≤ 1) ∧
    path = input.below names

theorem Reached.unique {otherDepth : Nat}
    (hnames : ∀ path, ∀ name ∈ view.names path, Path.IsName name)
    (hpath : Reached view recursive input path depth)
    (hother : Reached view recursive input other otherDepth) (hsame : path.Same other) :
    path = other ∧ depth = otherDepth := by
  obtain ⟨names, hleads, rfl, -, rfl⟩ := hpath
  obtain ⟨others, hothers, rfl, -, rfl⟩ := hother
  rw [Path.below_injective (hleads.forall_mem hnames) (hothers.forall_mem hnames) hsame]
  exact ⟨rfl, rfl⟩

theorem Reached.of_mem_opened (hpath : Reached view recursive input path depth)
    {entry : Path × Nat} (hentry : entry ∈ opened view recursive path depth) :
    Reached view recursive input entry.1 entry.2 := by
  obtain ⟨names, hleads, rfl, -, rfl⟩ := hpath
  obtain ⟨hfile, hdirectory, hdepth, name, hname, rfl⟩ := mem_opened_iff.mp hentry
  refine ⟨names ++ [name], DirectoryView.leadsOn_concat_iff.mpr ⟨hleads, hfile, hdirectory, hname⟩,
    List.length_append, ?_, (Path.below_concat ..).symm⟩
  rcases hdepth with hinput | hrecursive
  · exact .inr (by omega)
  · exact .inl hrecursive

/-- A path that the search has met or is going to meet. -/
def Covers (search : Search) (path : Path) : Prop :=
  path ∈ search.visited ∨ ∃ depth, (path, depth) ∈ search.stack

structure Explores (view : DirectoryView) (recursive : Bool) (input : Path) (search : Search) :
    Prop where
  stack : ∀ entry ∈ search.stack, Reached view recursive input entry.1 entry.2
  visited : ∀ path ∈ search.visited, ∃ depth, Reached view recursive input path depth
  files : ∀ file, file ∈ search.files ↔ file ∈ search.visited ∧ view.isFile file = true
  apart : search.files.Pairwise fun a b => ¬ a.Same b
  begun : search.Covers input
  /-- All that comes on the stack for a path that was met has come there. -/
  closed : ∀ path ∈ search.visited, ∀ depth, Reached view recursive input path depth →
    ∀ entry ∈ opened view recursive path depth, search.Covers entry.1

theorem explores_start (view : DirectoryView) (recursive : Bool) (input : Path) :
    Explores view recursive input (start input) where
  stack entry hentry := by
    rw [List.mem_singleton.mp hentry]
    exact ⟨[], trivial, rfl, .inr (Nat.zero_le 1), rfl⟩
  visited path hpath := absurd hpath List.not_mem_nil
  files file := by simp [start]
  apart := .nil
  begun := .inr ⟨0, List.mem_singleton.mpr rfl⟩
  closed path hpath := absurd hpath List.not_mem_nil

theorem Covers.mono {search next : Search} (hcovers : search.Covers path)
    (hvisited : search.visited ⊆ next.visited)
    (hstack : ∀ entry ∈ search.stack, next.Covers entry.1) : next.Covers path := by
  rcases hcovers with hmet | ⟨depth, hpending⟩
  · exact .inl (hvisited hmet)
  · exact hstack _ hpending

section

variable {stack : List (Path × Nat)} {visited files : List Path}

/-- A path that was met before is on the stack for nothing. -/
theorem Explores.skip (hnames : ∀ path, ∀ name ∈ view.names path, Path.IsName name)
    (h : Explores view recursive input ⟨(path, depth) :: stack, visited, files⟩)
    (hmet : ∃ other ∈ visited, other.Same path) :
    Explores view recursive input ⟨stack, visited, files⟩ := by
  obtain ⟨other, hother, hsame⟩ := hmet
  obtain ⟨otherDepth, hreached⟩ := h.visited other hother
  obtain ⟨rfl, -⟩ := hreached.unique hnames (h.stack _ List.mem_cons_self) hsame
  have hcovers : ∀ {path}, Covers ⟨(other, depth) :: stack, visited, files⟩ path →
      Covers ⟨stack, visited, files⟩ path := by
    refine fun hold => hold.mono (List.Subset.refl _) fun entry hentry => ?_
    rcases List.mem_cons.mp hentry with rfl | hlater
    · exact .inl hother
    · exact .inr ⟨entry.2, hlater⟩
  exact {
    stack := fun entry hentry => h.stack entry (List.mem_cons_of_mem _ hentry)
    visited := h.visited
    files := h.files
    apart := h.apart
    begun := hcovers h.begun
    closed := fun path hpath deep hdeep entry hentry =>
      hcovers (h.closed path hpath deep hdeep entry hentry) }

theorem Explores.apart_of_new
    (h : Explores view recursive input ⟨(path, depth) :: stack, visited, files⟩)
    (hnew : ¬ ∃ other ∈ visited, other.Same path) : ∀ file ∈ files, ¬ file.Same path :=
  fun file hfile hsame => hnew ⟨file, ((h.files file).mp hfile).1, hsame⟩

/-- The files after a path was looked at that had not been met. -/
theorem Explores.files_of_new
    (h : Explores view recursive input ⟨(path, depth) :: stack, visited, files⟩)
    (hnew : ¬ ∃ other ∈ visited, other.Same path) :
    (if view.isFile path then path.insertNew files else files) =
      if view.isFile path then path :: files else files := by
  have hinsert : path.insertNew files = path :: files := if_neg fun hold => by
    obtain ⟨file, hfile, hsame⟩ := Path.any_same_iff.mp hold
    exact h.apart_of_new hnew file hfile hsame
  rw [hinsert]

theorem Explores.look (hnames : ∀ path, ∀ name ∈ view.names path, Path.IsName name)
    (h : Explores view recursive input ⟨(path, depth) :: stack, visited, files⟩)
    (hnew : ¬ ∃ other ∈ visited, other.Same path) :
    Explores view recursive input ⟨opened view recursive path depth ++ stack, path :: visited,
      if view.isFile path then path.insertNew files else files⟩ := by
  rw [h.files_of_new hnew]
  have hreached : Reached view recursive input path depth := h.stack _ List.mem_cons_self
  have hcovers : ∀ {other}, Covers ⟨(path, depth) :: stack, visited, files⟩ other →
      Covers ⟨opened view recursive path depth ++ stack, path :: visited,
        if view.isFile path then path :: files else files⟩ other := by
    refine fun hold => hold.mono (List.subset_cons_self _ _) fun entry hentry => ?_
    rcases List.mem_cons.mp hentry with rfl | hlater
    · exact .inl List.mem_cons_self
    · exact .inr ⟨entry.2, List.mem_append_right _ hlater⟩
  constructor
  case stack =>
    intro entry hentry
    rcases List.mem_append.mp hentry with hopened | hold
    · exact hreached.of_mem_opened hopened
    · exact h.stack entry (List.mem_cons_of_mem _ hold)
  case visited =>
    intro other hother
    rcases List.mem_cons.mp hother with rfl | hold
    · exact ⟨depth, hreached⟩
    · exact h.visited other hold
  case files =>
    intro file
    have hfiles : file ∈ files ↔ file ∈ visited ∧ view.isFile file = true := h.files file
    simp only
    split
    next hfile =>
      rw [List.mem_cons, List.mem_cons, hfiles, or_and_right]
      exact or_congr_left ⟨fun hequal => ⟨hequal, hequal ▸ hfile⟩, And.left⟩
    next hfile =>
      rw [hfiles, List.mem_cons, or_and_right, or_iff_right]
      rintro ⟨rfl, hother⟩
      exact hfile hother
  case apart =>
    simp only
    split
    next =>
      have hapart := h.apart_of_new hnew
      exact List.pairwise_cons.mpr ⟨fun file hfile hsame => hapart file hfile hsame.symm, h.apart⟩
    next => exact h.apart
  case begun => exact hcovers h.begun
  case closed =>
    intro other hother deep hdeep entry hentry
    rcases List.mem_cons.mp hother with rfl | hold
    · obtain ⟨-, rfl⟩ := hdeep.unique hnames hreached rfl
      exact .inr ⟨entry.2, List.mem_append_left _ hentry⟩
    · exact hcovers (h.closed other hold deep hdeep entry hentry)

end

theorem Explores.step {search : Search}
    (hnames : ∀ path, ∀ name ∈ view.names path, Path.IsName name)
    (h : Explores view recursive input search) :
    Explores view recursive input (search.step view recursive) := by
  obtain ⟨_ | ⟨⟨path, depth⟩, stack⟩, visited, files⟩ := search
  · exact h
  · rw [step_cons]
    split
    next hmet => exact h.skip hnames (Path.any_same_iff.mp hmet)
    next hnew => exact h.look hnames fun hmet => hnew (Path.any_same_iff.mpr hmet)

theorem explores_iterate (hnames : ∀ path, ∀ name ∈ view.names path, Path.IsName name)
    (recursive : Bool) (input : Path) (steps : Nat) :
    Explores view recursive input ((Search.step view recursive)^[steps] (start input)) := by
  induction steps with
  | zero => exact explores_start view recursive input
  | succ steps ih =>
      rw [Function.iterate_succ_apply']
      exact ih.step hnames

/-! ## What a search has come to -/

/-- With nothing left to look at, a search has met everything that it may go down to. -/
theorem Explores.mem_visited {search : Search} (h : Explores view recursive input search)
    (hdone : search.stack = []) (hleads : view.LeadsOn input names)
    (hdepth : recursive = true ∨ names.length ≤ 1) : input.below names ∈ search.visited := by
  have hcovered : ∀ {path}, search.Covers path → path ∈ search.visited := by
    rintro path (hvisited | ⟨depth, hstack⟩)
    · exact hvisited
    · rw [hdone] at hstack
      cases hstack
  induction names using List.reverseRecOn with
  | nil => exact hcovered h.begun
  | append_singleton above name ih =>
      obtain ⟨habove, hfile, hdirectory, hname⟩ := DirectoryView.leadsOn_concat_iff.mp hleads
      rw [List.length_append, List.length_singleton] at hdepth
      have hless : recursive = true ∨ above.length ≤ 1 := hdepth.imp_right (by omega)
      have hopens : above.length = 0 ∨ recursive = true := hdepth.symm.imp_left (by omega)
      have hentry : ((input.below above).child name, above.length + 1) ∈
          Search.opened view recursive (input.below above) above.length :=
        mem_opened_iff.mpr ⟨hfile, hdirectory, hopens, name, hname, rfl⟩
      rw [Path.below_concat]
      exact hcovered (h.closed _ (ih habove hless) _ ⟨above, habove, rfl, hless, rfl⟩ _ hentry)

theorem Explores.mem_files_iff {search : Search} (h : Explores view recursive input search)
    (hdone : search.stack = []) :
    file ∈ search.files ↔ view.Finds recursive input file := by
  rw [h.files]
  constructor
  · rintro ⟨hvisited, hfile⟩
    obtain ⟨_, names, hleads, rfl, hdepth, rfl⟩ := h.visited file hvisited
    exact ⟨names, DirectoryView.leadsDown_iff.mpr ⟨hleads, hfile⟩, hdepth, rfl⟩
  · rintro ⟨names, hleads, hdepth, rfl⟩
    obtain ⟨hleadsOn, hfile⟩ := DirectoryView.leadsDown_iff.mp hleads
    exact ⟨h.mem_visited hdone hleadsOn hdepth, hfile⟩

end Search

/-! ## Other listings -/

/-- A view in which directories list the same names, in any order and any number of times. -/
def DirectoryView.listedAs (view : DirectoryView) (listing : Path → List String) : DirectoryView :=
  { view with names := listing }

namespace DirectoryView

theorem EndsBelow.listedAs (hlisting : ∀ path name, name ∈ listing path ↔ name ∈ view.names path)
    (hends : view.EndsBelow path) : (view.listedAs listing).EndsBelow path := by
  induction hends with
  | intro hchildren ih =>
      exact .intro fun hfile hdirectory name hname =>
        ih hfile hdirectory name ((hlisting _ name).mp hname)

theorem leadsDown_listedAs_iff
    (hlisting : ∀ path name, name ∈ listing path ↔ name ∈ view.names path) :
    (view.listedAs listing).LeadsDown path names ↔ view.LeadsDown path names := by
  induction names generalizing path with
  | nil => rfl
  | cons name rest ih =>
      rw [LeadsDown, LeadsDown, ih]
      exact and_congr_right fun _ => and_congr_right fun _ => and_congr_left fun _ =>
        hlisting path name

theorem finds_listedAs_iff (hlisting : ∀ path name, name ∈ listing path ↔ name ∈ view.names path) :
    (view.listedAs listing).Finds recursive input file ↔ view.Finds recursive input file :=
  exists_congr fun _ => and_congr_left fun _ => leadsDown_listedAs_iff hlisting

end DirectoryView

/-! ## Sources in order -/

theorem DirectoryView.finds_of_isFile (hfile : view.isFile input = true) :
    view.Finds recursive input file ↔ file = input := by
  constructor
  · rintro ⟨_ | ⟨name, rest⟩, hleads, -, rfl⟩
    · rfl
    · rw [DirectoryView.LeadsDown, hfile] at hleads
      cases hleads.1
  · rintro rfl
    exact ⟨[], hfile, .inr (Nat.zero_le 1), rfl⟩

theorem DirectoryView.not_finds_of_missing (hfile : view.isFile input = false)
    (hdirectory : view.isDirectory input = false) : ¬ view.Finds recursive input file := by
  rintro ⟨_ | ⟨name, rest⟩, hleads, -, rfl⟩
  · rw [DirectoryView.LeadsDown, hfile] at hleads
    cases hleads
  · rw [DirectoryView.LeadsDown, hdirectory] at hleads
    cases hleads.2.1

/-- The sources of an input, from the files that were found in whatever order they come. -/
def DirectoryView.sortedSources (view : DirectoryView) (input : Path) (found : List Path) :
    List Path :=
  if view.isFile input then [input] else (found.filter Path.isJackSource).mergeSort Path.le

namespace Path

variable {found order : List Path}

theorem pairwise_before_mergeSort (hapart : found.Pairwise fun a b => ¬ a.Same b) :
    (found.mergeSort le).Pairwise Before := by
  have htrans : ∀ a b c : Path, a.le b = true → b.le c = true → a.le c = true :=
    fun _ _ _ => le_trans
  have htotal : ∀ a b : Path, (a.le b || b.le a) = true := fun a b =>
    Bool.or_eq_true_iff.mpr (le_total a b)
  have hsorted := List.pairwise_mergeSort htrans htotal found
  have hdistinct := (List.mergeSort_perm found le).symm.pairwise hapart fun h hsame => h hsame.symm
  exact (hsorted.and hdistinct).imp fun h => before_of_le h.1 h.2

end Path

theorem DirectoryView.pairwise_sortedSources {found : List Path}
    (hapart : found.Pairwise fun a b => ¬ a.Same b) :
    (view.sortedSources input found).Pairwise Path.Before := by
  unfold sortedSources
  split
  next => exact List.pairwise_singleton _ _
  next => exact Path.pairwise_before_mergeSort (hapart.filter _)

theorem DirectoryView.mem_sortedSources_iff {found : List Path} {source : Path}
    (hfile : view.isFile input = false) :
    source ∈ view.sortedSources input found ↔ source ∈ found ∧ source.isJackSource = true := by
  rw [sortedSources, hfile, if_neg Bool.false_ne_true, List.mem_mergeSort, List.mem_filter]

/-- The order in which files were found makes no difference. -/
theorem DirectoryView.sortedSources_eq {found others : List Path}
    (hfound : found.Pairwise fun a b => ¬ a.Same b)
    (hothers : others.Pairwise fun a b => ¬ a.Same b)
    (hmem : ∀ file, file ∈ found ↔ file ∈ others) :
    view.sortedSources input found = view.sortedSources input others := by
  refine Path.eq_of_pairwise_before (pairwise_sortedSources hfound)
    (pairwise_sortedSources hothers) fun source => ?_
  cases hfile : view.isFile input with
  | true => simp only [sortedSources, hfile, if_true]
  | false => rw [mem_sortedSources_iff hfile, mem_sortedSources_iff hfile, hmem]

/-- In a store the sources are those of its own search. -/
theorem FileStore.sources_eq_sortedSources {store : FileStore} {found : List Path}
    (hnames : ∀ path, ∀ name ∈ store.names path, Path.IsName name)
    (hapart : found.Pairwise fun a b => ¬ a.Same b)
    (hfound : ∀ file, file ∈ found ↔ store.view.Finds recursive input file) :
    store.sources recursive input = store.view.sortedSources input found := by
  cases hfile : store.isFile input with
  | true =>
      have hview : store.view.isFile input = true := hfile
      rw [sources, DirectoryView.sources, DirectoryView.sortedSources, if_pos hview, if_pos hview]
  | false =>
      have hview : store.view.isFile input = false := hfile
      refine Path.eq_of_pairwise_before ?_ (DirectoryView.pairwise_sortedSources hapart)
        fun source => ?_
      · rw [sources_eq_filter hfile]
        exact (Path.pairwise_ordered _).filter _
      · rw [mem_sources_iff hnames hfile, DirectoryView.mem_sortedSources_iff hview, hfound]

/-- When a search has ended, it has found what there is, each file once. -/
theorem Search.files_of_done (hnames : ∀ path, ∀ name ∈ view.names path, Path.IsName name)
    (hlisting : ∀ path name, name ∈ listing path ↔ name ∈ view.names path) {steps : Nat}
    (hdone : ((step (view.listedAs listing) recursive)^[steps] (start input)).stack = []) :
    ((step (view.listedAs listing) recursive)^[steps] (start input)).files.Pairwise
        (fun a b => ¬ a.Same b)
      ∧ ∀ file, file ∈ ((step (view.listedAs listing) recursive)^[steps] (start input)).files ↔
          view.Finds recursive input file := by
  have hlisted : ∀ path, ∀ name ∈ (view.listedAs listing).names path, Path.IsName name :=
    fun path name hname => hnames path name ((hlisting path name).mp hname)
  have hexplores := explores_iterate hlisted recursive input steps
  exact ⟨hexplores.apart, fun file =>
    (hexplores.mem_files_iff hdone).trans (DirectoryView.finds_listedAs_iff hlisting)⟩

theorem Search.exists_done (hends : view.EndsBelow input)
    (hlisting : ∀ path name, name ∈ listing path ↔ name ∈ view.names path) (recursive : Bool) :
    ∃ steps, ((step (view.listedAs listing) recursive)^[steps] (start input)).stack = [] := by
  obtain ⟨steps, met, found, hsteps⟩ :=
    exists_iterate_step (hends.listedAs hlisting) recursive 0 [] [] []
  exact ⟨steps, by rw [start, hsteps]⟩

theorem Path.eq_singleton_of_apart {found : List Path}
    (hapart : found.Pairwise fun a b => ¬ a.Same b) (hfound : ∀ file, file ∈ found ↔ file = input) :
    found = [input] := by
  have hnodup : found.Nodup := hapart.imp fun h hequal => h (congrArg components hequal)
  have hsingle : [input].Nodup := List.pairwise_singleton _ _
  exact List.perm_singleton.mp ((List.perm_ext_iff_of_nodup hnodup hsingle).mpr fun file =>
    (hfound file).trans List.mem_singleton.symm)

/-- Whatever the order and the repetitions in which directories list their names: where what
lies below an input is a finite tree, the search ends, and when it has ended it has found
exactly the files that there are.  Its sources are then the files among them that are called
like sources, in strict order and always the same, and in a store they are its sources. -/
theorem discovery_is_exact (view : DirectoryView) (input : Path) (recursive : Bool)
    (hnames : ∀ path, ∀ name ∈ view.names path, Path.IsName name)
    (hends : view.EndsBelow input) :
    ∃ sources : List Path,
      sources.Pairwise Path.Before
      ∧ (view.isFile input = true → sources = [input])
      ∧ (view.isFile input = false → ∀ source, source ∈ sources ↔
          view.Finds recursive input source ∧ view.isFile source = true
          ∧ ∃ stem, stem ≠ "" ∧ source.fileName? = some (stem ++ "." ++ sourceExtension))
      ∧ (∀ store : FileStore, store.view = view →
          sources = store.sources recursive input
          ∧ ∀ file, file ∈ store.files recursive input ↔ view.Finds recursive input file)
      ∧ ∀ listing : Path → List String,
          (∀ path name, name ∈ listing path ↔ name ∈ view.names path) →
          let after := fun steps =>
            (Search.step (view.listedAs listing) recursive)^[steps] (.start input)
          (∃ steps, (after steps).stack = [])
          ∧ ∀ steps, (after steps).stack = [] →
              (after steps).files.Pairwise (fun a b => ¬ a.Same b)
              ∧ (∀ file, file ∈ (after steps).files ↔ view.Finds recursive input file)
              ∧ (view.isFile input = true → (after steps).files = [input])
              ∧ (view.isFile input = false → view.isDirectory input = false →
                  (after steps).files = [])
              ∧ ∀ order, order.Perm (after steps).files →
                  view.sortedSources input order = sources := by
  -- the sources are those of the search that takes the listings as the view has them
  obtain ⟨ownSteps, hown⟩ := Search.exists_done hends (fun _ _ => Iff.rfl) recursive
  obtain ⟨hownApart, hownFiles⟩ := Search.files_of_done hnames (fun _ _ => Iff.rfl) hown
  refine ⟨view.sortedSources input
      ((Search.step (view.listedAs view.names) recursive)^[ownSteps] (.start input)).files,
    DirectoryView.pairwise_sortedSources hownApart, fun hfile => if_pos hfile, ?_, ?_, ?_⟩
  · intro hfile source
    rw [DirectoryView.mem_sortedSources_iff hfile, hownFiles, Path.isJackSource_iff]
    refine and_congr_right fun hfinds => (and_iff_right ?_).symm
    obtain ⟨names, hleads, -, rfl⟩ := hfinds
    exact hleads.isFile
  · rintro store rfl
    exact ⟨(sources_eq_sortedSources hnames hownApart hownFiles).symm,
      fun file => mem_files_iff hnames⟩
  · intro listing hlisting after
    refine ⟨Search.exists_done hends hlisting recursive, fun steps hdone => ?_⟩
    obtain ⟨hapart, hfiles⟩ := Search.files_of_done hnames hlisting hdone
    refine ⟨hapart, hfiles, fun hfile => ?_, fun hfile hdirectory => ?_, fun order horder => ?_⟩
    · refine Path.eq_singleton_of_apart hapart fun file => ?_
      rw [hfiles, DirectoryView.finds_of_isFile hfile]
    · refine List.eq_nil_iff_forall_not_mem.mpr fun file hmem => ?_
      exact DirectoryView.not_finds_of_missing hfile hdirectory ((hfiles file).mp hmem)
    · have horderApart : order.Pairwise fun a b => ¬ a.Same b :=
        horder.symm.pairwise hapart fun h hsame => h hsame.symm
      refine DirectoryView.sortedSources_eq horderApart hownApart fun file => ?_
      rw [horder.mem_iff, hfiles, hownFiles]

/-- A directory with sources, a link to one of them, a directory that is called like a source,
and files that are not. -/
def mixedDirectory : FileStore :=
  ⟨[(["src"], .directory), (["src", "x.jack"], .directory),
    (["src", "x.jack", "C.jack"], .file (.text "")), (["src", "notes.txt"], .file (.text "")),
    (["src", "B.jack"], .file (.text "")), (["src", "A.jack"], .file (.text "")),
    (["src", ".jack"], .file (.text "")), (["src", "D.jack"], .link (.ofString "A.jack"))], []⟩

theorem discovery_is_exact_in_mixed_directory :
    let view := mixedDirectory.view
    let input := Path.ofString "src"
    let listing := fun path => view.names path ++ (view.names path).reverse
    (∀ path, ∀ name ∈ view.names path, Path.IsName name) ∧ view.EndsBelow input
    ∧ ∃ steps, view.sortedSources input
        ((Search.step (view.listedAs listing) true)^[steps] (.start input)).files =
          ["src/A.jack", "src/B.jack", "src/D.jack", "src/x.jack/C.jack"].map .ofString := by
  intro view input listing
  have hproper : mixedDirectory.ProperNames := by decide +kernel
  have hnames : ∀ path, ∀ name ∈ view.names path, Path.IsName name :=
    fun _ _ hname => (hproper.of_mem_names hname).1
  have hends : view.EndsBelow input := endsBelow hnames input
  have hlisting : ∀ path name, name ∈ listing path ↔ name ∈ view.names path := by
    simp [listing]
  obtain ⟨sources, -, -, -, hstore, hlistings⟩ := discovery_is_exact view input true hnames hends
  obtain ⟨⟨steps, hdone⟩, hsearch⟩ := hlistings listing hlisting
  refine ⟨hnames, hends, steps, ?_⟩
  rw [(hsearch steps hdone).2.2.2.2 _ (.refl _), (hstore mixedDirectory rfl).1]
  decide +kernel

end JackTree
