import JackTree.Proofs.DiscoveredSources

/-!
# The depth of searches

A search does not go deeper than walks can.  Between two links a walk goes down through
entries that lie deeper and deeper, and there are only so many links in one walk, so
`walk_length_le` bounds the names that it can go through, also where links lead in circles.
A search that goes as deep as the bound therefore finds everything.
-/

namespace JackTree

open FileStore

variable {store : FileStore} {view : DirectoryView} {path input source : Path}
  {location place : Location} {names front rest : List String} {name : String} {recursive : Bool}
  {follow : Location → List String → Except OsError Location} {links : Nat}

namespace FileStore

/-! ## Walking on -/

/-- A walk that gets through takes its first stretch as a step, ends with it, or hands on the
others at a link. -/
theorem walkWith_cons {segment : String}
    (hwalk : store.walkWith follow location (segment :: rest) = .ok place) :
    (∃ next, store.walkWith follow next rest = .ok place ∧
        (Path.IsName segment → next = location ++ [segment] ∧ store.entryAt? next ≠ none))
      ∨ rest = []
      ∨ ∃ next more, follow next (more ++ rest) = .ok place := by
  rw [walkWith] at hwalk
  split at hwalk
  next => cases hwalk
  next =>
    split at hwalk
    next hstay =>
      exact .inl ⟨location, hwalk, fun hname => absurd hstay (not_or.mpr ⟨hname.1, hname.2.1⟩)⟩
    next =>
      split at hwalk
      next hup => exact .inl ⟨_, hwalk, fun hname => absurd hup hname.2.2⟩
      next =>
        split at hwalk
        next => cases hwalk
        next =>
          split at hwalk
          next =>
            split at hwalk
            next hempty => exact .inr (.inl (List.isEmpty_iff.mp hempty))
            next => cases hwalk
          next => exact .inr (.inr ⟨_, _, hwalk⟩)
          next hentry => exact .inl ⟨_, hwalk, fun _ => ⟨rfl, by simp [hentry]⟩⟩

/-- A walk comes to the last stretches by itself or hands them on at a link. -/
theorem walkWith_append (hwalk : store.walkWith follow location (front ++ rest) = .ok place) :
    (∃ middle, store.walkWith follow middle rest = .ok place) ∨
      ∃ middle more, follow middle (more ++ rest) = .ok place := by
  induction front generalizing location with
  | nil => exact .inl ⟨location, hwalk⟩
  | cons segment front ih =>
      rw [List.cons_append] at hwalk
      rcases walkWith_cons hwalk with ⟨next, hnext, -⟩ | hnone | ⟨next, more, hmore⟩
      · exact ih hnext
      · exact .inl ⟨place, by rw [(List.append_eq_nil_iff.mp hnone).2, walkWith]⟩
      · rw [← List.append_assoc] at hmore
        exact .inr ⟨next, more ++ front, hmore⟩

theorem walk_append (hwalk : store.walk links location (front ++ rest) = .ok place) :
    ∃ fewer, fewer ≤ links ∧ ∃ middle, store.walk fewer middle rest = .ok place := by
  induction links generalizing location front with
  | zero =>
      rcases walkWith_append hwalk with ⟨middle, hmiddle⟩ | ⟨middle, more, hmore⟩
      · exact ⟨0, Nat.le_refl 0, middle, hmiddle⟩
      · cases hmore
  | succ links ih =>
      rcases walkWith_append hwalk with ⟨middle, hmiddle⟩ | ⟨middle, more, hmore⟩
      · exact ⟨links + 1, Nat.le_refl _, middle, hmiddle⟩
      · obtain ⟨fewer, hfewer, hmiddle⟩ := ih hmore
        exact ⟨fewer, Nat.le_succ_of_le hfewer, hmiddle⟩

/-! ## Going down -/

/-- How many entries lie deeper than a location. -/
def room (store : FileStore) (location : Location) : Nat :=
  store.entries.countP fun entry => location.length < entry.1.length

theorem room_le (store : FileStore) (location : Location) :
    store.room location ≤ store.entries.length :=
  List.countP_le_length

/-- Below an entry there is less room than above it. -/
theorem room_lt (hthere : store.entryAt? (location ++ [name]) ≠ none) :
    store.room (location ++ [name]) < store.room location := by
  obtain ⟨entry, hentry⟩ := Option.ne_none_iff_exists'.mp hthere
  rw [entryAt?, if_neg (by simp)] at hentry
  obtain ⟨before, after, hsplit⟩ := List.mem_iff_append.mp (mem_of_lookup hentry)
  have hdeeper : ∀ entries : List (Location × Entry),
      entries.countP (fun entry => (location ++ [name]).length < entry.1.length) ≤
        entries.countP fun entry => location.length < entry.1.length := by
    intro entries
    refine List.countP_mono_left fun entry _ hlonger => ?_
    simp only [List.length_append, List.length_singleton, decide_eq_true_eq] at hlonger ⊢
    omega
  have hbefore := hdeeper before
  have hafter := hdeeper after
  rw [room, room, hsplit, List.countP_append, List.countP_append,
    List.countP_cons_of_neg (by simp), List.countP_cons_of_pos (by simp)]
  omega

/-- Names lead down through entries, or to a link that hands on what is left of them. -/
theorem walkWith_names (hnames : ∀ name ∈ names, Path.IsName name)
    (hwalk : store.walkWith follow location names = .ok place) :
    names.length ≤ store.room location + 1 ∨
      ∃ before rest, names = before ++ rest ∧ before.length ≤ store.room location + 1 ∧
        ∃ middle front, follow middle (front ++ rest) = .ok place := by
  induction names generalizing location with
  | nil => exact .inl (Nat.zero_le _)
  | cons name rest ih =>
      obtain ⟨hname, hrest⟩ := List.forall_mem_cons.mp hnames
      rcases walkWith_cons hwalk with ⟨next, hnext, hdown⟩ | rfl | ⟨next, more, hmore⟩
      · obtain ⟨rfl, hthere⟩ := hdown hname
        have hless := room_lt hthere
        rcases ih hrest hnext with hlength | ⟨before, last, rfl, hlength, hfollow⟩
        · left
          rw [List.length_cons]
          omega
        · right
          refine ⟨name :: before, last, rfl, ?_, hfollow⟩
          rw [List.length_cons]
          omega
      · exact .inl (Nat.le_add_left 1 _)
      · exact .inr ⟨[name], rest, rfl, Nat.le_add_left 1 _, next, more, hmore⟩

/-- A walk gets through so many names at most, links and circles or not. -/
theorem walk_length_le (hnames : ∀ name ∈ names, Path.IsName name)
    (hwalk : store.walk links location names = .ok place) :
    names.length ≤ (links + 1) * (store.entries.length + 1) := by
  induction links using Nat.strongRecOn generalizing location names with
  | ind links ih =>
      have hroom := store.room_le location
      cases links with
      | zero =>
          rcases walkWith_names hnames hwalk with hlength | ⟨_, _, _, _, _, _, hfollow⟩
          · omega
          · cases hfollow
      | succ links =>
          rw [Nat.succ_mul]
          rcases walkWith_names hnames hwalk with
            hlength | ⟨before, rest, rfl, hlength, middle, front, hfollow⟩
          · omega
          · obtain ⟨fewer, hfewer, next, hnext⟩ := walk_append hfollow
            have hrest := ih fewer (Nat.lt_succ_of_le hfewer)
              (fun name hname => hnames name (List.mem_append_right _ hname)) hnext
            have hmul := Nat.mul_le_mul_right (store.entries.length + 1)
              (Nat.add_le_add_right hfewer 1)
            rw [List.length_append]
            omega

end FileStore

/-! ## Searching -/

theorem Path.exists_segments_below (path : Path) (hnames : ∀ name ∈ names, IsName name) :
    ∃ base, (path.below names).segments = base ++ names := by
  rcases eq_or_ne names [] with rfl | hne
  · exact ⟨path.segments, (List.append_nil _).symm⟩
  · rw [← join_names hnames hne, join, isAbsolute_names hnames, if_neg Bool.false_ne_true]
    split
    next => exact ⟨_, rfl⟩
    next => exact ⟨_, rfl⟩

/-- Some names lead on from a path through directories, to whatever there is. -/
def DirectoryView.LeadsOn (view : DirectoryView) : Path → List String → Prop
  | _, [] => True
  | path, name :: rest => view.isFile path = false ∧ view.isDirectory path = true ∧
      name ∈ view.names path ∧ view.LeadsOn (path.child name) rest

/-- What lies below a path is a finite tree: every way down from it ends. -/
inductive DirectoryView.EndsBelow (view : DirectoryView) : Path → Prop
  | intro {path : Path} (hchildren : view.isFile path = false → view.isDirectory path = true →
      ∀ name ∈ view.names path, view.EndsBelow (path.child name)) : view.EndsBelow path

namespace DirectoryView

theorem leadsDown_iff :
    view.LeadsDown path names ↔
      view.LeadsOn path names ∧ view.isFile (path.below names) = true := by
  induction names generalizing path with
  | nil => exact (iff_of_eq (true_and _)).symm
  | cons name rest ih => simp only [LeadsDown, LeadsOn, ih, and_assoc]; rfl

theorem leadsOn_concat_iff : view.LeadsOn path (names ++ [name]) ↔ view.LeadsOn path names ∧
    view.isFile (path.below names) = false ∧ view.isDirectory (path.below names) = true ∧
    name ∈ view.names (path.below names) := by
  induction names generalizing path with
  | nil => simp [LeadsOn, Path.below]
  | cons first rest ih => simp only [List.cons_append, LeadsOn, ih, and_assoc]; rfl

theorem LeadsOn.forall_mem {P : String → Prop}
    (hnames : ∀ path, ∀ name ∈ view.names path, P name) (hleads : view.LeadsOn path names) :
    ∀ name ∈ names, P name := by
  induction names generalizing path with
  | nil => simp
  | cons first rest ih =>
      obtain ⟨-, -, hfirst, hrest⟩ := hleads
      exact List.forall_mem_cons.mpr ⟨hnames path first hfirst, ih hrest⟩

end DirectoryView

theorem Path.below_concat (path : Path) (names : List String) (name : String) :
    path.below (names ++ [name]) = (path.below names).child name :=
  List.foldl_concat _ _ _ _

namespace FileStore

theorem length_le_depthBound (hnames : ∀ name ∈ names, Path.IsName name)
    (hstatus : ∃ entry, store.status (path.below names) = .ok entry) :
    names.length ≤ store.depthBound := by
  obtain ⟨entry, hstatus⟩ := hstatus
  obtain ⟨place, hlocate, -⟩ := status_eq_ok_iff.mp hstatus
  obtain ⟨base, hsegments⟩ := path.exists_segments_below hnames
  have hwalk := ((checked_walk_eq_ok_iff _).mp hlocate).2
  rw [hsegments] at hwalk
  obtain ⟨fewer, hfewer, middle, hmiddle⟩ := walk_append hwalk
  calc
    names.length ≤ (fewer + 1) * (store.entries.length + 1) := walk_length_le hnames hmiddle
    _ ≤ store.depthBound := Nat.mul_le_mul_right _ (Nat.succ_le_succ hfewer)

theorem exists_status_of_isFile (hfile : store.isFile path = true) :
    ∃ entry, store.status path = .ok entry := by
  unfold isFile at hfile
  split at hfile
  next contents hstatus => exact ⟨_, hstatus⟩
  next => cases hfile

theorem length_le_of_leadsDown (hnames : ∀ path, ∀ name ∈ store.names path, Path.IsName name)
    (hleads : store.view.LeadsDown input names) : names.length ≤ store.depthBound :=
  length_le_depthBound (hleads.forall_mem hnames) (exists_status_of_isFile hleads.isFile)

/-- Every way down in a store ends, by the limit on links if by nothing else. -/
theorem endsBelow (hnames : ∀ path, ∀ name ∈ store.names path, Path.IsName name)
    (input : Path) : store.view.EndsBelow input := by
  suffices hends : ∀ left names, store.view.LeadsOn input names →
      store.depthBound < names.length + left → store.view.EndsBelow (input.below names) from
    hends (store.depthBound + 1) [] trivial (by simp)
  intro left
  induction left with
  | zero =>
      intro names hleads hdeep
      refine .intro fun _ hdirectory => ?_
      have hlength := length_le_depthBound (hleads.forall_mem hnames)
        ⟨_, isDirectory_iff_status.mp hdirectory⟩
      omega
  | succ left ih =>
      intro names hleads hdeep
      refine .intro fun hfile hdirectory name hname => ?_
      rw [← Path.below_concat]
      refine ih _ (DirectoryView.leadsOn_concat_iff.mpr ⟨hleads, hfile, hdirectory, hname⟩) ?_
      rw [List.length_append, List.length_singleton]
      omega

end FileStore

/-! ## What a search comes to -/

/-- The names that lead from an input to a file that is searched for. -/
def DirectoryView.Finds (view : DirectoryView) (recursive : Bool) (input file : Path) : Prop :=
  ∃ names, view.LeadsDown input names ∧ (recursive = true ∨ names.length ≤ 1) ∧
    file = input.below names

namespace Path

theorem below_injective (hnames : ∀ name ∈ names, IsName name)
    (hothers : ∀ name ∈ front, IsName name)
    (hsame : (path.below names).Same (path.below front)) : names = front := by
  rwa [Same, components_below hnames, components_below hothers, List.append_cancel_left_eq,
    map_name_injective.eq_iff] at hsame

end Path

theorem DirectoryView.Finds.eq_of_same {a b : Path}
    (hnames : ∀ path, ∀ name ∈ view.names path, Path.IsName name)
    (ha : view.Finds recursive input a) (hb : view.Finds recursive input b) (hsame : a.Same b) :
    a = b := by
  obtain ⟨names, haLeads, -, rfl⟩ := ha
  obtain ⟨others, hbLeads, -, rfl⟩ := hb
  rw [Path.below_injective (haLeads.forall_mem hnames) (hbLeads.forall_mem hnames) hsame]

namespace FileStore

/-- A store finds the files that there are, however deep they lie. -/
theorem mem_files_iff (hnames : ∀ path, ∀ name ∈ store.names path, Path.IsName name) :
    source ∈ store.files recursive input ↔ store.view.Finds recursive input source := by
  have hwithin : ∀ {file}, file ∈ store.view.filesWithin (store.searchDepth recursive) input ↔
      store.view.Finds recursive input file := by
    intro file
    rw [DirectoryView.mem_filesWithin_iff, DirectoryView.Finds]
    refine exists_congr fun names => ⟨?_, ?_⟩
    · rintro ⟨hlength, hleads, hfile⟩
      refine ⟨hleads, ?_, hfile⟩
      cases recursive with
      | false => exact .inr hlength
      | true => exact .inl rfl
    · rintro ⟨hleads, hdepth, hfile⟩
      refine ⟨?_, hleads, hfile⟩
      cases recursive with
      | false => exact hdepth.resolve_left Bool.false_ne_true
      | true => exact length_le_of_leadsDown hnames hleads
  rw [files, DirectoryView.files, Path.mem_ordered_iff, hwithin]
  intro a ha b hb
  exact (hwithin.mp ha).eq_of_same hnames (hwithin.mp hb)

theorem sources_eq_filter (hfile : store.isFile input = false) :
    store.sources recursive input = (store.files recursive input).filter Path.isJackSource := by
  have hview : store.view.isFile input = false := hfile
  rw [sources, DirectoryView.sources, hview, if_neg Bool.false_ne_true]
  rfl

theorem mem_sources_iff (hnames : ∀ path, ∀ name ∈ store.names path, Path.IsName name)
    (hfile : store.isFile input = false) :
    source ∈ store.sources recursive input ↔
      store.view.Finds recursive input source ∧ source.isJackSource = true := by
  rw [sources_eq_filter hfile, List.mem_filter, mem_files_iff hnames]

end FileStore

end JackTree
