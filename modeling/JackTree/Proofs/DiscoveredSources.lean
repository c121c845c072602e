import JackTree.Proofs.CollectedResults
import JackTree.Proofs.PathComponents

/-!
# Discovered sources

What a search below a directory finds, and in which order.  Everything found is led to by
names that stand in the directories on the way, and `liesBelow_of_mem_sources` gives a
source as a row of directory names, a stem and the extension of sources.
-/

namespace JackTree

variable {view : DirectoryView} {store : FileStore} {path input source other : Path}
  {name stem : String} {names rel : List String} {paths : List Path}

/-! ## Order -/

namespace Path

/-- One path comes before another one in the order of paths. -/
def Before (a b : Path) : Prop :=
  compare a.components b.components = .lt

theorem Before.trans {a b c : Path} (hab : a.Before b) (hbc : b.Before c) : a.Before c :=
  Std.TransCmp.lt_trans hab hbc

theorem Before.not_same {a b : Path} (h : a.Before b) : ¬ a.Same b := by
  intro hsame
  have hequal : compare b.components b.components = .eq := Std.compare_self
  rw [Before, hsame, hequal] at h
  cases h

theorem Before.not_before {a b : Path} (h : a.Before b) : ¬ b.Before a := fun hback =>
  (h.trans hback).not_same rfl

theorem compare_append_singleton (common : List Component) (a b : Component) :
    compare (common ++ [a]) (common ++ [b]) = compare a b := by
  induction common with
  | nil => simp
  | cons first rest ih =>
      rw [List.compare_eq_compareLex] at ih ⊢
      rw [List.cons_append, List.cons_append, List.compareLex_cons_cons, ih, Std.compare_self]
      rfl

/-- In one directory, the order of paths is the order of names. -/
theorem before_of_lt {common : List Component} {aName bName : String} {a b : Path}
    (ha : a.components = common ++ [.name aName]) (hb : b.components = common ++ [.name bName])
    (hlt : aName < bName) : a.Before b := by
  rw [Before, ha, hb, compare_append_singleton, Component.compare_name]
  exact if_pos hlt

theorem before_of_le {a b : Path} (hle : a.le b = true)
    (hne : ¬ a.Same b) : a.Before b := by
  unfold Path.le at hle
  cases hcompare : compare a.components b.components with
  | lt => exact hcompare
  | eq => exact absurd (Std.LawfulEqOrd.eq_of_compare hcompare) hne
  | gt => simp [hcompare] at hle

/-- What is in strict order is determined by what is in it. -/
theorem eq_of_pairwise_before {others : List Path} (hpaths : paths.Pairwise Before)
    (hothers : others.Pairwise Before) (hmem : ∀ path, path ∈ paths ↔ path ∈ others) :
    paths = others := by
  have hnodup : ∀ {paths : List Path}, paths.Pairwise Before → paths.Nodup := fun hpaths =>
    hpaths.imp fun hbefore hequal => hbefore.not_same (congrArg components hequal)
  exact List.Perm.eq_of_pairwise (fun _ _ _ _ hbefore hback => absurd hback hbefore.not_before)
    hpaths hothers ((List.perm_ext_iff_of_nodup (hnodup hpaths) (hnodup hothers)).mpr hmem)

theorem pairwise_insertOrdered (hpaths : paths.Pairwise Before) :
    (path.insertOrdered paths).Pairwise Before := by
  induction paths with
  | nil => exact List.pairwise_singleton _ _
  | cons first rest ih =>
      obtain ⟨hfirst, hrest⟩ := List.pairwise_cons.mp hpaths
      rw [insertOrdered]
      split
      next hlt =>
        refine List.pairwise_cons.mpr ⟨fun later hlater => ?_, hpaths⟩
        rcases List.mem_cons.mp hlater with rfl | hlater
        · exact hlt
        · exact Before.trans hlt (hfirst later hlater)
      next => exact hpaths
      next hgt =>
        refine List.pairwise_cons.mpr ⟨fun later hlater => ?_, ih hrest⟩
        rcases mem_of_mem_insertOrdered hlater with rfl | hlater
        · exact Std.OrientedCmp.lt_of_gt hgt
        · exact hfirst later hlater

theorem pairwise_ordered (paths : List Path) : (ordered paths).Pairwise Before := by
  induction paths with
  | nil => exact .nil
  | cons first rest ih => exact pairwise_insertOrdered ih

theorem mem_insertOrdered_iff {first : Path} {paths : List Path}
    (hequal : ∀ other ∈ paths, first.Same other → first = other) :
    path ∈ first.insertOrdered paths ↔ path = first ∨ path ∈ paths := by
  refine ⟨mem_of_mem_insertOrdered, fun hmem => ?_⟩
  induction paths with
  | nil => exact List.mem_singleton.mpr (hmem.resolve_right List.not_mem_nil)
  | cons next rest ih =>
      rw [insertOrdered]
      split
      next => exact List.mem_cons.mpr hmem
      next hsame =>
        have hfirst := hequal next List.mem_cons_self (Std.LawfulEqOrd.eq_of_compare hsame)
        exact hmem.elim (fun h => List.mem_cons.mpr (.inl (h.trans hfirst))) id
      next =>
        have hrest := ih fun other hother => hequal other (List.mem_cons_of_mem _ hother)
        rcases hmem with hfirst | hmem
        · exact List.mem_cons_of_mem _ (hrest (.inl hfirst))
        · rcases List.mem_cons.mp hmem with hnext | hlater
          · exact List.mem_cons.mpr (.inl hnext)
          · exact List.mem_cons_of_mem _ (hrest (.inr hlater))

theorem mem_ordered_iff {paths : List Path}
    (hequal : ∀ a ∈ paths, ∀ b ∈ paths, a.Same b → a = b) :
    path ∈ ordered paths ↔ path ∈ paths := by
  induction paths with
  | nil => rfl
  | cons first rest ih =>
      have hrest := ih fun a ha b hb =>
        hequal a (List.mem_cons_of_mem _ ha) b (List.mem_cons_of_mem _ hb)
      change path ∈ first.insertOrdered (ordered rest) ↔ _
      rw [mem_insertOrdered_iff, hrest, List.mem_cons]
      intro other hother
      exact hequal first List.mem_cons_self other
        (List.mem_cons_of_mem _ (mem_of_mem_ordered hother))

end Path

/-! ## What a search finds -/

def Path.below (path : Path) (names : List String) : Path :=
  names.foldl Path.child path

/-- Some names lead from a path through directories to a file. -/
def DirectoryView.LeadsDown (view : DirectoryView) : Path → List String → Prop
  | path, [] => view.isFile path = true
  | path, name :: rest => view.isFile path = false ∧ view.isDirectory path = true ∧
      name ∈ view.names path ∧ view.LeadsDown (path.child name) rest

theorem DirectoryView.LeadsDown.isFile (hleads : view.LeadsDown path names) :
    view.isFile (path.below names) = true := by
  induction names generalizing path with
  | nil => exact hleads
  | cons name rest ih => exact ih hleads.2.2.2

theorem DirectoryView.LeadsDown.forall_mem {P : String → Prop}
    (hnames : ∀ path, ∀ name ∈ view.names path, P name) (hleads : view.LeadsDown path names) :
    ∀ name ∈ names, P name := by
  induction names generalizing path with
  | nil => simp
  | cons first rest ih =>
      obtain ⟨-, -, hfirst, hrest⟩ := hleads
      exact List.forall_mem_cons.mpr ⟨hnames path first hfirst, ih hrest⟩

/-- A search finds the files that so many names at most lead to. -/
theorem DirectoryView.mem_filesWithin_iff {depth : Nat} :
    source ∈ view.filesWithin depth path ↔
      ∃ names, names.length ≤ depth ∧ view.LeadsDown path names ∧ source = path.below names := by
  induction depth generalizing path with
  | zero =>
      rw [filesWithin]
      constructor
      · intro hmem
        split at hmem
        next hfile => exact ⟨[], Nat.le_refl 0, hfile, List.mem_singleton.mp hmem⟩
        next => cases hmem
      · rintro ⟨names, hlength, hleads, rfl⟩
        obtain rfl := List.eq_nil_of_length_eq_zero (Nat.le_zero.mp hlength)
        have hfile : view.isFile path = true := hleads
        rw [if_pos hfile]
        exact List.mem_singleton.mpr rfl
  | succ depth ih =>
      rw [filesWithin]
      constructor
      · intro hmem
        split at hmem
        next hfile => exact ⟨[], Nat.zero_le _, hfile, List.mem_singleton.mp hmem⟩
        next hfile =>
          split at hmem
          next hdirectory =>
            obtain ⟨name, hname, hbelow⟩ := List.mem_flatMap.mp hmem
            obtain ⟨rest, hlength, hleads, rfl⟩ := ih.mp hbelow
            exact ⟨name :: rest, Nat.succ_le_succ hlength,
              ⟨by simpa using hfile, hdirectory, hname, hleads⟩, rfl⟩
          next => cases hmem
      · rintro ⟨names, hlength, hleads, rfl⟩
        cases names with
        | nil =>
            have hfile : view.isFile path = true := hleads
            rw [if_pos hfile]
            exact List.mem_singleton.mpr rfl
        | cons name rest =>
            obtain ⟨hfile, hdirectory, hname, hrest⟩ := hleads
            rw [if_neg (by simp [hfile]), if_pos hdirectory]
            refine List.mem_flatMap.mpr ⟨name, hname, ih.mpr ?_⟩
            exact ⟨rest, Nat.le_of_succ_le_succ hlength, hrest, rfl⟩

/-! ## Names -/

namespace FileStore

/-- Every name in a store leads one step down. -/
def ProperNames (store : FileStore) : Prop :=
  ∀ entry ∈ store.entries, ∀ name ∈ entry.1, Path.IsName name ∧ '/' ∉ name.toList

instance (store : FileStore) : Decidable store.ProperNames :=
  inferInstanceAs (Decidable (∀ entry ∈ store.entries, ∀ name ∈ entry.1, _ ∧ _))

theorem ProperNames.of_entry (hnames : store.ProperNames) {location : Location}
    (hthere : store.entryAt? location ≠ none) :
    ∀ name ∈ location, Path.IsName name ∧ '/' ∉ name.toList := by
  unfold entryAt? at hthere
  split at hthere
  next hroot => simp [List.isEmpty_iff.mp hroot]
  next =>
    obtain ⟨entry, hentry⟩ := Option.ne_none_iff_exists'.mp hthere
    exact hnames _ (mem_of_lookup hentry)

theorem mem_names_iff : name ∈ store.names path ↔
    ∃ location, store.locate path = .ok location ∧ store.entryAt? (location ++ [name]) ≠ none := by
  unfold FileStore.names
  cases hlocate : store.locate path with
  | error e => simp
  | ok place =>
      simp only [Except.ok.injEq, exists_eq_left']
      constructor
      · intro hmem
        obtain ⟨⟨location, entry⟩, hentry, hlast⟩ := List.mem_filterMap.mp hmem
        split at hlast
        next hparent =>
          have hlocation : location = place ++ [name] := by
            rw [← hparent, List.dropLast_append_getLast? name hlast]
          rw [← hlocation, entryAt?, if_neg (by simp [hlocation]), Ne, List.lookup_eq_none_iff]
          intro hnever
          simpa using hnever _ hentry
        next => cases hlast
      · intro hthere
        obtain ⟨entry, hentry⟩ := Option.ne_none_iff_exists'.mp hthere
        rw [entryAt?, if_neg (by simp)] at hentry
        exact List.mem_filterMap.mpr ⟨_, mem_of_lookup hentry, by simp⟩

theorem ProperNames.of_mem_names (hnames : store.ProperNames) (hname : name ∈ store.names path) :
    Path.IsName name ∧ '/' ∉ name.toList := by
  obtain ⟨location, -, hthere⟩ := mem_names_iff.mp hname
  exact hnames.of_entry hthere name (by simp)

theorem ProperNames.of_leadsDown (hnames : store.ProperNames)
    (hleads : store.view.LeadsDown path names) :
    ∀ name ∈ names, Path.IsName name ∧ '/' ∉ name.toList :=
  hleads.forall_mem fun _ _ => hnames.of_mem_names

theorem isFile_eq_false_of_isDirectory (hdirectory : store.isDirectory path = true) :
    store.isFile path = false := by
  rw [isDirectory_iff_status] at hdirectory
  simp [isFile, hdirectory]

end FileStore

namespace Path

theorem components_below (hnames : ∀ name ∈ names, IsName name) :
    (path.below names).components = path.components ++ names.map .name := by
  induction names generalizing path with
  | nil => simp [below]
  | cons name rest ih =>
      obtain ⟨hname, hrest⟩ := List.forall_mem_cons.mp hnames
      rw [below, List.foldl_cons, ← below, ih hrest, components_child hname, List.append_assoc]
      rfl

theorem isAbsolute_names (hnames : ∀ name ∈ names, IsName name) :
    (⟨names⟩ : Path).isAbsolute = false := by
  rcases names with _ | ⟨first, rest⟩
  · rfl
  · rw [Bool.eq_false_iff, Ne, isAbsolute_cons_iff]
    exact fun habsolute => (hnames first List.mem_cons_self).1 habsolute.1

theorem join_names (hnames : ∀ name ∈ names, IsName name) (hne : names ≠ []) :
    path.join ⟨names⟩ = path.below names := by
  induction names generalizing path with
  | nil => exact absurd rfl hne
  | cons first rest ih =>
      obtain ⟨hfirst, hrest⟩ := List.forall_mem_cons.mp hnames
      rcases rest with _ | ⟨second, rest⟩
      · rfl
      · rw [below, List.foldl_cons, ← below, ← ih hrest (List.cons_ne_nil _ _), child]
        have hlast : ∀ front : List String, (front ++ [first]).getLast? ≠ some "" := by
          simp [hfirst.1]
        simp only [join, isAbsolute_names hnames, isAbsolute_names hrest, isAbsolute_singleton,
          Bool.false_eq_true, if_false]
        split
        next => rw [if_neg (hlast _), List.append_assoc]; rfl
        next => rw [if_neg (hlast _), List.append_assoc]; rfl

theorem eq_append_of_cutAtDot {letters ending : List Char}
    (hcut : (cutAtDot letters).2 = some ending) :
    letters = (cutAtDot letters).1 ++ '.' :: ending := by
  have hdrop := @List.drop_left Char (letters.reverse.takeWhile (· != '.'))
    (letters.reverse.dropWhile (· != '.'))
  rw [List.takeWhile_append_dropWhile] at hdrop
  have hwhole := @List.takeWhile_append_dropWhile Char (· != '.') letters.reverse
  unfold cutAtDot at hcut ⊢
  simp only [hdrop] at hcut ⊢
  split at hcut
  next => cases hcut
  next => cases hcut
  next dot before _ hbehind =>
    have hdot : dot = '.' := by
      have hstop := List.head?_dropWhile_not (· != '.') letters.reverse
      simpa [hbehind] using hstop
    rw [hbehind, hdot] at hwhole
    have hletters := congrArg List.reverse hwhole.symm
    simpa [← Option.some.inj hcut] using hletters

theorem cutAtDot_append_dot {letters ending : List Char} (hletters : letters ≠ [])
    (hending : '.' ∉ ending) : cutAtDot (letters ++ '.' :: ending) = (letters, some ending) := by
  have hreverse :
      (letters ++ '.' :: ending).reverse = ending.reverse ++ '.' :: letters.reverse := by
    simp
  have hbehind : (letters ++ '.' :: ending).reverse.takeWhile (· != '.') = ending.reverse := by
    rw [hreverse, List.takeWhile_append_of_pos, List.takeWhile_cons_of_neg (by simp),
      List.append_nil]
    intro c hc
    exact bne_iff_ne.mpr fun hdot => hending (hdot ▸ List.mem_reverse.mp hc)
  obtain ⟨last, more, hmore⟩ := List.exists_cons_of_ne_nil (List.reverse_ne_nil_iff.mpr hletters)
  have hdrop : (letters ++ '.' :: ending).reverse.drop ending.reverse.length =
      '.' :: last :: more := by
    rw [hreverse, List.drop_left, hmore]
  unfold cutAtDot
  simp only [hbehind, hdrop]
  rw [← hmore, List.reverse_reverse, List.reverse_reverse]

theorem fst_cutAtDot_ne_nil {letters ending : List Char}
    (hcut : (cutAtDot letters).2 = some ending) : (cutAtDot letters).1 ≠ [] := by
  unfold cutAtDot at hcut ⊢
  simp only at hcut ⊢
  split at hcut
  next => cases hcut
  next => cases hcut
  next dot before hlonger _ => exact fun hnone => hlonger (List.reverse_eq_nil_iff.mp hnone)

/-- A source is called by some stem, which is not empty, and the extension of sources. -/
theorem isJackSource_iff : source.isJackSource = true ↔
    ∃ stem, stem ≠ "" ∧ source.fileName? = some (stem ++ "." ++ sourceExtension) := by
  rw [isJackSource, extension?, beq_iff_eq, Option.bind_eq_some_iff]
  constructor
  · rintro ⟨name, hname, hending⟩
    obtain ⟨ending, hcut, hjack⟩ := Option.map_eq_some_iff.mp hending
    refine ⟨String.ofList (cutAtDot name.toList).1, fun hnone => ?_, ?_⟩
    · have hletters := congrArg String.toList hnone
      rw [String.toList_ofList] at hletters
      exact fst_cutAtDot_ne_nil hcut hletters
    · have hletters := congrArg String.ofList (eq_append_of_cutAtDot hcut)
      rw [String.ofList_toList, List.append_cons, String.ofList_append, String.ofList_append,
        hjack] at hletters
      rw [hname]
      exact congrArg some hletters
  · rintro ⟨stem, hstem, hname⟩
    refine ⟨_, hname, ?_⟩
    have hletters : (stem ++ "." ++ sourceExtension).toList =
        stem.toList ++ '.' :: sourceExtension.toList := by
      simp
    rw [hletters, cutAtDot_append_dot (by simpa using hstem) (by decide)]
    exact congrArg some (String.ofList_toList)

end Path

/-! ## Sources -/

/-- A source that is called `stem.jack` and lies in the directory `rel` below an input. -/
structure Path.LiesBelow (source input : Path) (rel : List String) (stem : String) : Prop where
  proper : ∀ name ∈ rel, IsName name
  plain : '/' ∉ stem.toList
  stem? : source.stem? = some stem
  components : source.components =
    input.components ++ (rel ++ [stem ++ "." ++ sourceExtension]).map .name

theorem Path.LiesBelow.unique {otherRel : List String} {otherStem : String}
    (h : source.LiesBelow input rel stem) (hother : source.LiesBelow input otherRel otherStem) :
    rel = otherRel ∧ stem = otherStem := by
  have hcomponents := h.components.symm.trans hother.components
  rw [List.append_cancel_left_eq, map_name_injective.eq_iff, List.append_singleton_inj,
    String.append_left_inj, String.append_left_inj] at hcomponents
  exact hcomponents

theorem Path.exists_stem_of_isJackSource (hname : source.components.getLast? = some (.name name))
    (hjack : source.isJackSource = true) :
    ∃ stem, source.stem? = some stem ∧ name = stem ++ "." ++ sourceExtension := by
  have hfile : source.fileName? = some name := by rw [fileName?, hname]
  rw [isJackSource, extension?, hfile, beq_iff_eq, Option.bind_some,
    Option.map_eq_some_iff] at hjack
  obtain ⟨ending, hcut, hending⟩ := hjack
  refine ⟨String.ofList (cutAtDot name.toList).1, by rw [stem?, hfile]; rfl, ?_⟩
  have hletters := congrArg String.ofList (eq_append_of_cutAtDot hcut)
  rw [String.ofList_toList, List.append_cons, String.ofList_append, String.ofList_append, hending]
    at hletters
  exact hletters

/-- A source that is found below a directory is a Jack file in it or further down. -/
theorem liesBelow_of_mem_sources (hnames : store.ProperNames) {recursive : Bool}
    (hinput : store.isDirectory input = true) (hsource : source ∈ store.sources recursive input) :
    ∃ rel stem, source.LiesBelow input rel stem := by
  have hnoFile := FileStore.isFile_eq_false_of_isDirectory hinput
  change source ∈ (if store.isFile input then [input] else _) at hsource
  rw [hnoFile, if_neg Bool.false_ne_true] at hsource
  obtain ⟨hfound, hjack⟩ := List.mem_filter.mp hsource
  obtain ⟨names, -, hleads, rfl⟩ :=
    DirectoryView.mem_filesWithin_iff.mp (Path.mem_of_mem_ordered hfound)
  have hproper := hnames.of_leadsDown hleads
  rcases List.eq_nil_or_concat' names with rfl | ⟨rel, name, rfl⟩
  · have hfile : store.isFile input = true := hleads
    simp [hnoFile] at hfile
  · have hcomponents := @Path.components_below input _ fun name hname => (hproper name hname).1
    have hlast : (input.below (rel ++ [name])).components.getLast? = some (.name name) := by
      rw [hcomponents]
      simp
    obtain ⟨stem, hstem, rfl⟩ := Path.exists_stem_of_isJackSource hlast hjack
    refine ⟨rel, stem, fun name hname => (hproper name (List.mem_append_left _ hname)).1, ?_,
      hstem, hcomponents⟩
    intro hslash
    refine (hproper _ (List.mem_append_right _ (List.mem_singleton.mpr rfl))).2 ?_
    simp [hslash]

theorem isFile_of_mem_sources {recursive : Bool}
    (hsource : source ∈ store.sources recursive input) : store.isFile source = true := by
  change source ∈ (if store.isFile input then [input] else _) at hsource
  split at hsource
  next hfile => rwa [List.mem_singleton.mp hsource]
  next =>
    have hfound := Path.mem_of_mem_ordered (List.mem_filter.mp hsource).1
    obtain ⟨names, -, hleads, rfl⟩ := DirectoryView.mem_filesWithin_iff.mp hfound
    exact hleads.isFile

theorem pairwise_sources {recursive : Bool} (hinput : store.isDirectory input = true) :
    (store.sources recursive input).Pairwise Path.Before := by
  change (if store.isFile input then [input] else _).Pairwise _
  rw [FileStore.isFile_eq_false_of_isDirectory hinput, if_neg Bool.false_ne_true]
  exact (Path.pairwise_ordered _).filter _

theorem eq_of_same_of_mem_sources {recursive : Bool} (hinput : store.isDirectory input = true)
    (hsource : source ∈ store.sources recursive input)
    (hother : other ∈ store.sources recursive input) (hsame : source.Same other) :
    source = other := by
  have : Std.Symm fun a b : Path => ¬ a.Same b := ⟨fun _ _ hne hsame => hne hsame.symm⟩
  by_contra hne
  exact ((pairwise_sources hinput).imp Path.Before.not_same).forall hsource hother hne hsame

end JackTree
