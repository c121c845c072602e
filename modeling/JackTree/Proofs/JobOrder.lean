import JackTree.Compiler
import JackTree.Proofs.JobFootprint

/-!
# Order of jobs

Two jobs are apart when no document of one goes where the other one reads, makes a
directory or writes.  Jobs that are apart can be run in any order: the first one
leaves the other undisturbed, two of them can be exchanged, and so any order of
many is as good as any other.
-/

namespace JackTree

open FileStore

variable {s t store : FileStore} {a b job : Job}

/-- Two stores in which every lookup finds the same. -/
def FileStore.Same (s t : FileStore) : Prop :=
  t.workingDirectory = s.workingDirectory ∧ ∀ location, t.entryAt? location = s.entryAt? location

theorem FileStore.Same.refl (store : FileStore) : store.Same store :=
  ⟨rfl, fun _ => rfl⟩

theorem FileStore.Same.symm (hsame : s.Same t) : t.Same s :=
  ⟨hsame.1.symm, fun location => (hsame.2 location).symm⟩

theorem FileStore.Same.trans {u : FileStore} (hfirst : s.Same t) (hsecond : t.Same u) :
    s.Same u :=
  ⟨hsecond.1.trans hfirst.1, fun location => (hsecond.2 location).trans (hfirst.2 location)⟩

theorem FileStore.Same.grows (hsame : s.Same t) : s.Grows t where
  working := hsame.1
  directory location h := (hsame.2 location).trans h
  file location contents h := ⟨contents, (hsame.2 location).trans h⟩

theorem FileStore.Same.isTree (hsame : s.Same t) (htree : s.IsTree) : t.IsTree where
  noLink location entry h := htree.noLink location entry (hsame.2 location ▸ h)
  inDirectory location h := by
    rw [hsame.2] at h ⊢
    exact htree.inDirectory location h
  working := by rw [hsame.1, hsame.2, htree.working]

namespace Job

/-- No document of a job goes where another one writes, reads or makes a directory. -/
def Spares (store : FileStore) (job other : Job) : Prop :=
  ∀ place ∈ job.places store, place ∉ other.places store ∧
    place ≠ store.placeOf other.source ∧ ¬ store.Makes other.outputDirectory place

def Apart (store : FileStore) (a b : Job) : Prop :=
  a.Spares store b ∧ b.Spares store a

instance (store : FileStore) (a b : Job) : Decidable (Spares store a b) :=
  inferInstanceAs (Decidable (∀ place ∈ a.places store, _ ∧ _ ∧ ¬ _))

instance (store : FileStore) (a b : Job) : Decidable (Apart store a b) :=
  inferInstanceAs (Decidable (_ ∧ _))

theorem Apart.symm (h : Apart store a b) : Apart store b a :=
  ⟨h.2, h.1⟩

theorem undisturbed_of_same (hsame : s.Same t) : job.Undisturbed s t where
  grows := hsame.grows
  source := hsame.2 _
  documents place _ := hsame.2 place
  directories location hmakes := .inl ((hsame.2 location).trans hmakes.1)

theorem run_touches (hs : s.IsTree) (hready : job.Ready s) (location : Location) :
    (job.run s).1.entryAt? location = s.entryAt? location
    ∨ (s.Makes job.outputDirectory location ∧
        (job.run s).1.entryAt? location = some .directory)
    ∨ location ∈ job.places s := by
  rcases (run_stable hs hs hready (undisturbed_of_same (.refl s))).2 location with
    ⟨hsame, _⟩ | ⟨hmakes, hdirectory, _⟩ | ⟨hplace, _⟩
  · exact .inl hsame
  · exact .inr (.inl ⟨hmakes, hdirectory⟩)
  · exact .inr (.inr hplace)

/-- A job that is apart from another one does not notice that the other one was run. -/
theorem Apart.undisturbed (h : Apart s a b) (hs : s.IsTree) (ha : a.Ready s) (hb : b.Ready s) :
    a.Undisturbed s (b.run s).1 where
  grows := (evolves_run hs b).grows
  source := by
    rcases run_touches hs hb (s.placeOf a.source) with hsame | ⟨hmakes, _⟩ | hplace
    · exact hsame
    · rcases place_of_isFile hs ha.source with ⟨contents, _, hfile⟩
      have hmissing := hmakes.1
      simp [hfile] at hmissing
    · exact absurd rfl (h.2 _ hplace).2.1
  documents place hmem := by
    rcases run_touches hs hb place with hsame | ⟨hmakes, _⟩ | hplace
    · exact hsame
    · exact absurd hmakes (h.1 place hmem).2.2
    · exact absurd hplace (h.1 place hmem).1
  directories location hmakes := by
    rcases run_touches hs hb location with hsame | ⟨_, hdirectory⟩ | hplace
    · exact .inl (hsame.trans hmakes.1)
    · exact .inr hdirectory
    · exact absurd hmakes (h.2 location hplace).2.2

theorem Undisturbed.ready (h : job.Undisturbed s t) (hs : s.IsTree) (ht : t.IsTree)
    (hready : job.Ready s) : job.Ready t where
  source := by
    unfold isFile
    rw [status_eq_of_entry h.grows hs ht hready.source h.source]
    exact hready.source
  documents := hready.documents
  settles := settles_of_grows h.grows hs ht hready.settles h.directories

theorem Spares.undisturbed (h : Spares s a b) (hs : s.IsTree) (ht : t.IsTree)
    (hready : b.Ready s) (hb : b.Undisturbed s t) : Spares t a b := by
  intro place hmem
  rw [places_of_grows hb.grows] at hmem ⊢
  rcases h place hmem with ⟨hplaces, hsource, hmakes⟩
  refine ⟨hplaces, ?_, fun hmakesT => hmakes ?_⟩
  · rwa [hb.grows.placeOf]
  · exact makes_of_grows hb.grows hs ht hready.settles hb.directories hmakesT

/-- Two jobs that are apart can be exchanged. -/
theorem Apart.run_comm (h : Apart s a b) (hs : s.IsTree) (ha : a.Ready s) (hb : b.Ready s) :
    (a.run (b.run s).1).2 = (a.run s).2 ∧ (b.run (a.run s).1).2 = (b.run s).2 ∧
      (a.run (b.run s).1).1.Same (b.run (a.run s).1).1 := by
  have hsa := evolves_run hs a
  have hsb := evolves_run hs b
  rcases run_stable hs (hsb.isTree hs) ha (h.undisturbed hs ha hb) with ⟨haSame, haAlike⟩
  rcases run_stable hs (hsa.isTree hs) hb (h.symm.undisturbed hs hb ha) with ⟨hbSame, hbAlike⟩
  have hab := evolves_run (hsb.isTree hs) a
  have hba := evolves_run (hsa.isTree hs) b
  refine ⟨haSame, hbSame, ?_, fun location => ?_⟩
  · rw [hba.grows.working, hsa.grows.working, hab.grows.working, hsb.grows.working]
  · -- At every location each job changes nothing, makes a directory or writes a document;
    -- both writing there is what being apart excludes.
    rcases haAlike location with ⟨haOld, haNew⟩ | ⟨_, haOld, haNew⟩ | ⟨haPlace, haEqual⟩
    · rcases hbAlike location with ⟨hbOld, hbNew⟩ | ⟨_, hbOld, hbNew⟩ | ⟨_, hbEqual⟩
      · rw [haNew, hbNew, haOld, hbOld]
      · rw [haNew, hbNew, hbOld]
      · rw [haNew, hbEqual]
    · rw [haNew, hba.grows.directory location haOld]
    · rcases hbAlike location with ⟨hbOld, hbNew⟩ | ⟨_, hbOld, hbNew⟩ | ⟨hbPlace, _⟩
      · rw [hbNew, haEqual]
      · rw [hbNew, hab.grows.directory location hbOld]
      · exact absurd hbPlace (h.1 location haPlace).1

/-! ## Many jobs -/

structure Independent (store : FileStore) (jobs : List Job) : Prop where
  ready : ∀ job ∈ jobs, job.Ready store
  apart : jobs.Pairwise (Apart store)

theorem Independent.perm {jobs order : List Job} (h : Independent store jobs)
    (hperm : jobs.Perm order) : Independent store order where
  ready job hmem := h.ready job (hperm.mem_iff.mpr hmem)
  apart := h.apart.perm hperm Apart.symm

theorem Independent.undisturbed {jobs : List Job} (h : Independent s jobs) (hs : s.IsTree)
    (ht : t.IsTree) (hundisturbed : ∀ job ∈ jobs, job.Undisturbed s t) : Independent t jobs where
  ready job hmem := (hundisturbed job hmem).ready hs ht (h.ready job hmem)
  apart := h.apart.imp_of_mem fun ha hb hapart =>
    ⟨hapart.1.undisturbed hs ht (h.ready _ hb) (hundisturbed _ hb),
      hapart.2.undisturbed hs ht (h.ready _ ha) (hundisturbed _ ha)⟩

theorem Independent.after_first {rest : List Job} (h : Independent s (job :: rest))
    (hs : s.IsTree) : Independent (job.run s).1 rest := by
  have hrest : Independent s rest :=
    ⟨fun other hmem => h.ready other (List.mem_cons_of_mem _ hmem), h.apart.of_cons⟩
  refine hrest.undisturbed hs ((evolves_run hs job).isTree hs) fun other hmem => ?_
  exact (List.rel_of_pairwise_cons h.apart hmem).symm.undisturbed hs
    (hrest.ready other hmem) (h.ready job List.mem_cons_self)

end Job

namespace Compiler

theorem runJobs_cons (store : FileStore) (job : Job) (rest : List Job) :
    runJobs store (job :: rest) =
      ((runJobs (job.run store).1 rest).1,
        (job.run store).2 :: (runJobs (job.run store).1 rest).2) := by
  rw [runJobs]

theorem length_runJobs (store : FileStore) (jobs : List Job) :
    (runJobs store jobs).2.length = jobs.length := by
  induction jobs generalizing store with
  | nil => rfl
  | cons job rest ih => rw [runJobs_cons, List.length_cons, List.length_cons, ih]

theorem runJobs_same {jobs : List Job} (h : Job.Independent s jobs) (hs : s.IsTree)
    (hsame : s.Same t) :
    (runJobs t jobs).2 = (runJobs s jobs).2 ∧ (runJobs s jobs).1.Same (runJobs t jobs).1 := by
  induction jobs generalizing s t with
  | nil => exact ⟨rfl, hsame⟩
  | cons job rest ih =>
      rcases Job.run_stable hs (hsame.isTree hs) (h.ready job List.mem_cons_self)
        (Job.undisturbed_of_same hsame) with ⟨hresult, halike⟩
      have hnext : (job.run s).1.Same (job.run t).1 := by
        refine ⟨?_, fun location => halike.entryAt?_eq (hsame.2 location)⟩
        rw [(Job.evolves_run (hsame.isTree hs) job).grows.working, hsame.1,
          (Job.evolves_run hs job).grows.working]
      rcases ih (h.after_first hs) ((Job.evolves_run hs job).isTree hs) hnext with
        ⟨hresults, hstores⟩
      rw [runJobs_cons, runJobs_cons, hresult, hresults]
      exact ⟨rfl, hstores⟩

/-- Independent jobs leave the same store in every order, and each has its own result. -/
theorem runJobs_perm {jobs order : List Job} (hperm : jobs.Perm order)
    (h : Job.Independent s jobs) (hs : s.IsTree) :
    (runJobs s jobs).1.Same (runJobs s order).1 ∧
      (jobs.zip (runJobs s jobs).2).Perm (order.zip (runJobs s order).2) := by
  induction hperm generalizing s with
  | nil => exact ⟨.refl s, .nil⟩
  | cons job _ ih =>
      rcases ih (h.after_first hs) ((Job.evolves_run hs job).isTree hs) with ⟨hstores, hresults⟩
      exact ⟨hstores, hresults.cons _⟩
  | swap a b rest =>
      have hapart := List.rel_of_pairwise_cons h.apart List.mem_cons_self
      have hb := h.ready b List.mem_cons_self
      have ha := h.ready a (List.mem_cons_of_mem _ List.mem_cons_self)
      rcases hapart.run_comm hs hb ha with ⟨hbSame, haSame, hsame⟩
      have hsb := Job.evolves_run hs b
      have hsba := hsb.trans (Job.evolves_run (hsb.isTree hs) a)
      have hlater := (h.after_first hs).after_first (hsb.isTree hs)
      rcases runJobs_same hlater (hsba.isTree hs) hsame.symm with ⟨hresults, hstores⟩
      refine ⟨hstores, ?_⟩
      simp only [runJobs_cons, List.zip_cons_cons, hbSame, haSame, hresults]
      exact .swap _ _ _
  | trans hfirst _ ihFirst ihSecond =>
      rcases ihFirst h hs with ⟨hstores, hresults⟩
      rcases ihSecond (h.perm hfirst) hs with ⟨hstores', hresults'⟩
      exact ⟨hstores.trans hstores', hresults.trans hresults'⟩

end Compiler

end JackTree
