import FbTesting.Analyser.Failure
import FbTesting.Server.Confinement

/-!
# The directories of a session

When a form is posted, `createUserDir` makes the directories of the session that are
not there.  It catches what `mkdirSync` throws, so that it always returns, perhaps
without a directory.  If the session has no directory, the calls for all three stand
in one `try` block, and the first that throws keeps the others from being made.  If
it has one, each of the other two has a block of its own.

So a session for which `uploads` cannot be made is without `data` after its first
form, and has it after the second.  From then on nothing changes any more, and what
was there is never touched (`createUserDir_often`).
-/

namespace Server

open Base Analyser

/-! ## Attempts -/

/-- `fs.mkdirSync`, which fails also where the system denies it. -/
def mkdirSync (denied : Path → Bool) (fs : FileTree) (p : Path) (c : Text) : Option FileTree :=
  if denied (p ++ [c]) then none else fs.mkdir p c

/-- A `try` block of `mkdirSync` calls: after the first that throws no other is made. -/
def tryMkdirs (denied : Path → Bool) : FileTree → List (Path × Text) → FileTree
  | fs, [] => fs
  | fs, (p, c) :: calls =>
      match mkdirSync denied fs p c with
      | some gs => tryMkdirs denied gs calls
      | none => fs

/-- `./users`. -/
def usersDir (cwd : Path) : Path := cwd ++ ["users".toList]

/-- `createUserDir`. -/
def createUserDir (denied : Path → Bool) (cwd : Path) (s : SessionID) (fs : FileTree) : FileTree :=
  let user := userDir cwd s
  if fs.entry user = none then
    tryMkdirs denied fs
      [(usersDir cwd, s.text), (user, "uploads".toList), (user, "data".toList)]
  else
    let fs :=
      if fs.entry (user ++ ["uploads".toList]) = none then
        tryMkdirs denied fs [(user, "uploads".toList)]
      else fs
    if fs.entry (user ++ ["data".toList]) = none then
      tryMkdirs denied fs [(user, "data".toList)]
    else fs

variable {denied : Path → Bool} {fs gs hs : FileTree} {p : Path} {c : Text}
  {calls : List (Path × Text)} {dirs : List Path}

theorem mkdirSync_eq_some (h : mkdirSync denied fs p c = some gs) :
    denied (p ++ [c]) = false ∧ fs.entry p = some .dir ∧ fs.entry (p ++ [c]) = none ∧
      gs.entry = Function.update fs.entry (p ++ [c]) (some .dir) := by
  unfold mkdirSync at h
  split at h
  · cases h
  · rename_i hdenied
    exact ⟨Bool.eq_false_iff.mpr hdenied, FileTree.mkdir_eq_some h⟩

theorem mkdirSync_eq_none (h : mkdirSync denied fs p c = none) (hdenied : denied (p ++ [c]) = false)
    (hp : fs.entry p = some .dir) : fs.entry (p ++ [c]) ≠ none := by
  intro hnone
  have hsome := FileTree.mkdir_isSome_iff.mpr ⟨hp, hnone⟩
  rw [mkdirSync, hdenied, if_neg Bool.false_ne_true] at h
  rw [h] at hsome
  cases hsome

/-! ## Nothing is lost -/

/-- Of these paths some are new directories, which were not denied, and nothing else
has changed. -/
def Grows (denied : Path → Bool) (dirs : List Path) (fs gs : FileTree) : Prop :=
  ∀ p, gs.entry p = fs.entry p ∨
    fs.entry p = none ∧ gs.entry p = some .dir ∧ denied p = false ∧ p ∈ dirs

theorem Grows.refl : Grows denied dirs fs fs := fun _ => Or.inl rfl

theorem Grows.trans (h : Grows denied dirs fs gs) (h' : Grows denied dirs gs hs) :
    Grows denied dirs fs hs := by
  intro p
  cases h' p with
  | inl hsame =>
      rw [hsame]
      exact h p
  | inr hnew =>
      cases h p with
      | inl hsame =>
          rw [← hsame]
          exact Or.inr hnew
      | inr hold => exact Or.inr ⟨hold.1, hnew.2⟩

theorem Grows.mono {dirs' : List Path} (h : Grows denied dirs fs gs) (hsub : dirs ⊆ dirs') :
    Grows denied dirs' fs gs := fun p =>
  (h p).imp_right fun hnew => ⟨hnew.1, hnew.2.1, hnew.2.2.1, hsub hnew.2.2.2⟩

theorem Grows.of_not_mem (h : Grows denied dirs fs gs) (hp : p ∉ dirs) :
    gs.entry p = fs.entry p :=
  (h p).elim id fun hnew => absurd hnew.2.2.2 hp

/-- A directory stays one. -/
theorem Grows.dir (h : Grows denied dirs fs gs) (hp : fs.entry p = some .dir) :
    gs.entry p = some .dir := (h p).elim (fun hsame => hsame.trans hp) fun hnew => hnew.2.1

/-- Where nothing is, nothing was. -/
theorem Grows.none (h : Grows denied dirs fs gs) (hp : gs.entry p = none) : fs.entry p = none :=
  (h p).elim (fun hsame => hsame.symm.trans hp) fun hnew => hnew.1

theorem grows_mkdirSync (h : mkdirSync denied fs p c = some gs) :
    Grows denied [p ++ [c]] fs gs := by
  obtain ⟨hdenied, _, hnone, hentry⟩ := mkdirSync_eq_some h
  intro q
  rw [hentry]
  by_cases hq : q = p ++ [c]
  · rw [hq, Function.update_self]
    exact Or.inr ⟨hnone, rfl, hdenied, List.mem_cons_self⟩
  · exact Or.inl (Function.update_of_ne hq _ _)

theorem grows_tryMkdirs (denied : Path → Bool) : ∀ (calls : List (Path × Text)) (fs : FileTree),
    Grows denied (calls.map fun call => call.1 ++ [call.2]) fs (tryMkdirs denied fs calls)
  | [], fs => .refl
  | (p, c) :: calls, fs => by
      rw [tryMkdirs]
      cases hmk : mkdirSync denied fs p c with
      | none => exact .refl
      | some gs =>
          have hrest := grows_tryMkdirs denied calls gs
          refine ((grows_mkdirSync hmk).mono ?_).trans (hrest.mono (List.subset_cons_self _ _))
          exact List.cons_subset_cons _ (List.nil_subset _)

/-! ## Which directories there are -/

/-- A directory is there, or can be made. -/
def CanHave (denied : Path → Bool) (fs : FileTree) (d : Path) : Prop :=
  fs.entry d = some .dir ∨ fs.entry d = none ∧ denied d = false

/-- The first of some attempts comes to a directory if there can be one. -/
theorem dir_tryMkdirs_iff :
    (tryMkdirs denied fs ((p, c) :: calls)).entry (p ++ [c]) = some .dir ↔
      fs.entry p = some .dir ∧ CanHave denied fs (p ++ [c]) := by
  rw [tryMkdirs]
  cases hmk : mkdirSync denied fs p c with
  | none =>
      constructor
      · intro hdir
        exact ⟨fs.parent (c := c) (by rw [hdir]; exact nofun), Or.inl hdir⟩
      · rintro ⟨hp, hdir | ⟨hnone, hdenied⟩⟩
        · exact hdir
        · exact absurd hnone (mkdirSync_eq_none hmk hdenied hp)
  | some gs =>
      obtain ⟨hdenied, hp, hnone, hentry⟩ := mkdirSync_eq_some hmk
      refine iff_of_true ((grows_tryMkdirs denied calls gs).dir ?_) ⟨hp, Or.inr ⟨hnone, hdenied⟩⟩
      rw [hentry, Function.update_self]

/-- What can be had does not depend on what has been made. -/
theorem canHave_iff (h : Grows denied dirs fs gs) (d : Path) :
    CanHave denied gs d ↔ CanHave denied fs d := by
  cases h d with
  | inl hsame => rw [CanHave, hsame, CanHave]
  | inr hnew => exact iff_of_true (Or.inl hnew.2.1) (Or.inr ⟨hnew.1, hnew.2.2.1⟩)

/-- An attempt that fails changes nothing. -/
theorem tryMkdirs_of_none (h : mkdirSync denied fs p c = none) :
    tryMkdirs denied fs ((p, c) :: calls) = fs := by
  rw [tryMkdirs, h]

theorem tryMkdirs_of_some (h : mkdirSync denied fs p c = some gs) :
    tryMkdirs denied fs ((p, c) :: calls) = tryMkdirs denied gs calls := by
  rw [tryMkdirs, h]

/-- An attempt for what is there fails. -/
theorem mkdirSync_of_ne (h : fs.entry (p ++ [c]) ≠ none) : mkdirSync denied fs p c = none := by
  cases hmk : mkdirSync denied fs p c with
  | none => rfl
  | some gs => exact absurd (mkdirSync_eq_some hmk).2.2.1 h

/-- An attempt that has failed fails again, if its parent is as it was. -/
theorem mkdirSync_again (h : mkdirSync denied fs p c = none) (hg : Grows denied dirs fs gs)
    (hp : p ∉ dirs) : mkdirSync denied gs p c = none := by
  cases hmk : mkdirSync denied gs p c with
  | none => rfl
  | some hs =>
      obtain ⟨hdenied, hdir, hnone, _⟩ := mkdirSync_eq_some hmk
      rw [hg.of_not_mem hp] at hdir
      exact absurd (hg.none hnone) (mkdirSync_eq_none h hdenied hdir)

/-- After an attempt the next one fails. -/
theorem mkdirSync_tryMkdirs : mkdirSync denied (tryMkdirs denied fs [(p, c)]) p c = none := by
  cases hmk : mkdirSync denied fs p c with
  | none => rw [tryMkdirs_of_none hmk, hmk]
  | some gs =>
      rw [tryMkdirs_of_some hmk, tryMkdirs]
      refine mkdirSync_of_ne ?_
      rw [(mkdirSync_eq_some hmk).2.2.2, Function.update_self]
      exact Option.some_ne_none _

/-! ## One form -/

variable {cwd : Path} {s : SessionID}

theorem userDir_eq (cwd : Path) (s : SessionID) : userDir cwd s = usersDir cwd ++ [s.text] := by
  simp [userDir, usersDir]

theorem child_not_mem (p : Path) (c : Text) : p ∉ [p ++ [c]] := by simp

/-- The directories that `createUserDir` makes. -/
def userDirs (cwd : Path) (s : SessionID) : List Path :=
  [userDir cwd s, uploadsDir cwd s, dataDir cwd s]

/-- With a directory of the session, there is an attempt for each of the others. -/
theorem createUserDir_of_ne (h : fs.entry (userDir cwd s) ≠ none) :
    createUserDir denied cwd s fs =
      tryMkdirs denied (tryMkdirs denied fs [(userDir cwd s, "uploads".toList)])
        [(userDir cwd s, "data".toList)] := by
  have hguard : ∀ (fs : FileTree) (c : Text),
      (if fs.entry (userDir cwd s ++ [c]) = none then tryMkdirs denied fs [(userDir cwd s, c)]
        else fs) = tryMkdirs denied fs [(userDir cwd s, c)] := by
    intro fs c
    split
    · rfl
    · rename_i hne
      rw [tryMkdirs_of_none (mkdirSync_of_ne hne)]
  rw [createUserDir, if_neg h]
  simp only [hguard]

/-- Without one, all attempts stand in one block. -/
theorem createUserDir_of_none (h : fs.entry (userDir cwd s) = none) :
    createUserDir denied cwd s fs = tryMkdirs denied fs
      [(usersDir cwd, s.text), (userDir cwd s, "uploads".toList),
        (userDir cwd s, "data".toList)] := if_pos h

/-- Whatever happens, nothing is lost. -/
theorem grows_createUserDir (denied : Path → Bool) (cwd : Path) (s : SessionID) (fs : FileTree) :
    Grows denied (userDirs cwd s) fs (createUserDir denied cwd s fs) := by
  by_cases h : fs.entry (userDir cwd s) = none
  · rw [createUserDir_of_none h]
    refine (grows_tryMkdirs denied _ fs).mono ?_
    simp [userDirs, uploadsDir, dataDir, userDir_eq]
  · rw [createUserDir_of_ne h]
    refine ((grows_tryMkdirs denied _ fs).mono ?_).trans ((grows_tryMkdirs denied _ _).mono ?_)
    · simp [userDirs, uploadsDir]
    · simp [userDirs, dataDir]

/-- The directory of the session after a form. -/
theorem userDir_after_iff :
    (createUserDir denied cwd s fs).entry (userDir cwd s) = some .dir ↔
      fs.entry (usersDir cwd) = some .dir ∧ CanHave denied fs (userDir cwd s) := by
  by_cases h : fs.entry (userDir cwd s) = none
  · rw [createUserDir_of_none h, userDir_eq]
    exact dir_tryMkdirs_iff
  · have hsame : (createUserDir denied cwd s fs).entry (userDir cwd s) =
        fs.entry (userDir cwd s) :=
      (grows_createUserDir denied cwd s fs _).elim id fun hnew => absurd hnew.1 h
    rw [hsame]
    constructor
    · intro hdir
      refine ⟨fs.parent (c := s.text) ?_, Or.inl hdir⟩
      rwa [← userDir_eq]
    · rintro ⟨_, hdir | hnone⟩
      · exact hdir
      · exact absurd hnone.1 h

/-- Attempts for what is in a directory leave the directory. -/
theorem entry_tryMkdirs_children (denied : Path → Bool) (fs : FileTree) (p : Path)
    (cs : List Text) :
    (tryMkdirs denied fs (cs.map fun c => (p, c))).entry p = fs.entry p := by
  refine (grows_tryMkdirs denied _ fs).of_not_mem ?_
  simp

/-- The directory for uploads after a form. -/
theorem uploadsDir_after_iff :
    (createUserDir denied cwd s fs).entry (uploadsDir cwd s) = some .dir ↔
      (createUserDir denied cwd s fs).entry (userDir cwd s) = some .dir ∧
        CanHave denied fs (uploadsDir cwd s) := by
  by_cases h : fs.entry (userDir cwd s) = none
  · rw [createUserDir_of_none h]
    cases hmk : mkdirSync denied fs (usersDir cwd) s.text with
    | none =>
        rw [tryMkdirs_of_none hmk, h, uploadsDir, FileTree.child_eq_none h]
        simp
    | some gs =>
        have huser := entry_tryMkdirs_children denied gs (userDir cwd s)
          ["uploads".toList, "data".toList]
        rw [tryMkdirs_of_some hmk, ← canHave_iff (grows_mkdirSync hmk)]
        exact dir_tryMkdirs_iff.trans (by rw [← huser]; rfl)
  · have huser := (entry_tryMkdirs_children denied
      (tryMkdirs denied fs [(userDir cwd s, "uploads".toList)]) (userDir cwd s)
        ["data".toList]).trans
      (entry_tryMkdirs_children denied fs (userDir cwd s) ["uploads".toList])
    have hother := (grows_tryMkdirs denied [(userDir cwd s, "data".toList)]
      (tryMkdirs denied fs [(userDir cwd s, "uploads".toList)])).of_not_mem
        (p := uploadsDir cwd s) (by simp [uploadsDir])
    rw [createUserDir_of_ne h, hother]
    refine dir_tryMkdirs_iff.trans (and_congr_left fun _ => ?_)
    rw [← huser]
    rfl

/-- The directory for the charts after a form.  It also needs that of the uploads if
the session had none. -/
theorem dataDir_after_iff :
    (createUserDir denied cwd s fs).entry (dataDir cwd s) = some .dir ↔
      (createUserDir denied cwd s fs).entry (userDir cwd s) = some .dir ∧
        CanHave denied fs (dataDir cwd s) ∧
        (fs.entry (userDir cwd s) = none → denied (uploadsDir cwd s) = false) := by
  by_cases h : fs.entry (userDir cwd s) = none
  · rw [createUserDir_of_none h]
    cases hmk : mkdirSync denied fs (usersDir cwd) s.text with
    | none =>
        rw [tryMkdirs_of_none hmk, h, dataDir, FileTree.child_eq_none h]
        simp
    | some gs =>
        have huser := entry_tryMkdirs_children denied gs (userDir cwd s)
          ["uploads".toList, "data".toList]
        have hgs := grows_mkdirSync hmk
        rw [tryMkdirs_of_some hmk]
        have hchild : ∀ c, gs.entry (userDir cwd s ++ [c]) = none := by
          intro c
          rw [hgs.of_not_mem (by simp [userDir_eq]), FileTree.child_eq_none h]
        cases hup : mkdirSync denied gs (userDir cwd s) "uploads".toList with
        | none =>
            rw [tryMkdirs_of_none hup, dataDir, hchild]
            refine iff_of_false (fun hsome => by cases hsome) ?_
            rintro ⟨hdir, _, hdenied⟩
            exact mkdirSync_eq_none hup (hdenied h) hdir (hchild _)
        | some hs =>
            have hsame := entry_tryMkdirs_children denied hs (userDir cwd s) ["data".toList]
            rw [tryMkdirs_of_some hup, ← canHave_iff hgs, ← canHave_iff (grows_mkdirSync hup)]
            refine dir_tryMkdirs_iff.trans (and_congr (by rw [← hsame]; rfl) ?_)
            exact (and_iff_left fun _ => (mkdirSync_eq_some hup).1).symm
  · have huser := entry_tryMkdirs_children denied
      (tryMkdirs denied fs [(userDir cwd s, "uploads".toList)]) (userDir cwd s) ["data".toList]
    rw [createUserDir_of_ne h, ← canHave_iff (grows_tryMkdirs denied _ fs)]
    refine dir_tryMkdirs_iff.trans (and_congr (by rw [← huser]; rfl) ?_)
    exact (and_iff_left fun hnone => absurd hnone h).symm

/-! ## Many forms -/

/-- Once the session has a directory, a second form changes nothing more. -/
theorem createUserDir_twice (h : fs.entry (userDir cwd s) ≠ none) :
    createUserDir denied cwd s (createUserDir denied cwd s fs) = createUserDir denied cwd s fs := by
  have hthere : (createUserDir denied cwd s fs).entry (userDir cwd s) ≠ none :=
    fun hnone => h ((grows_createUserDir denied cwd s fs).none hnone)
  have huploads : mkdirSync denied (createUserDir denied cwd s fs) (userDir cwd s)
      "uploads".toList = none := by
    rw [createUserDir_of_ne h]
    refine mkdirSync_again mkdirSync_tryMkdirs (grows_tryMkdirs denied _ _) ?_
    exact child_not_mem _ _
  have hdata : mkdirSync denied (createUserDir denied cwd s fs) (userDir cwd s)
      "data".toList = none := by
    rw [createUserDir_of_ne h]
    exact mkdirSync_tryMkdirs
  rw [createUserDir_of_ne hthere, tryMkdirs_of_none huploads, tryMkdirs_of_none hdata]

/-- After two forms nothing changes any more. -/
theorem createUserDir_three (denied : Path → Bool) (cwd : Path) (s : SessionID) (fs : FileTree) :
    createUserDir denied cwd s (createUserDir denied cwd s (createUserDir denied cwd s fs)) =
      createUserDir denied cwd s (createUserDir denied cwd s fs) := by
  by_cases h : (createUserDir denied cwd s fs).entry (userDir cwd s) = none
  · -- not even the directory of the session could be made
    have hfs := (grows_createUserDir denied cwd s fs).none h
    have hsame : createUserDir denied cwd s fs = fs := by
      rw [createUserDir_of_none hfs] at h ⊢
      cases hmk : mkdirSync denied fs (usersDir cwd) s.text with
      | none => exact tryMkdirs_of_none hmk
      | some gs =>
          have hdir : (tryMkdirs denied fs [(usersDir cwd, s.text),
              (userDir cwd s, "uploads".toList), (userDir cwd s, "data".toList)]).entry
                (usersDir cwd ++ [s.text]) = some .dir := by
            obtain ⟨hdenied, husers, hnone, _⟩ := mkdirSync_eq_some hmk
            exact dir_tryMkdirs_iff.mpr ⟨husers, Or.inr ⟨hnone, hdenied⟩⟩
          rw [← userDir_eq, h] at hdir
          cases hdir
    rw [hsame, hsame, hsame]
  · exact createUserDir_twice h

/-- The directories of the session after a form: those that it can have.  Only that of
the charts may be missing all the same, if the session had no directory and that of the
uploads is denied. -/
theorem dirs_after_iff {d : Path} (hd : d ∈ userDirs cwd s) :
    (createUserDir denied cwd s fs).entry d = some .dir ↔
      (fs.entry (usersDir cwd) = some .dir ∧ CanHave denied fs (userDir cwd s) ∧
        CanHave denied fs d) ∧
      (d = dataDir cwd s → fs.entry (userDir cwd s) = none →
        denied (uploadsDir cwd s) = false) := by
  have huser : userDir cwd s ≠ dataDir cwd s := by simp [dataDir]
  have huploads : uploadsDir cwd s ≠ dataDir cwd s := by simp [uploadsDir, dataDir]
  simp only [userDirs, List.mem_cons, List.not_mem_nil, or_false] at hd
  rcases hd with rfl | rfl | rfl
  · rw [userDir_after_iff, and_self, and_iff_left fun h => absurd h huser]
  · rw [uploadsDir_after_iff, userDir_after_iff, and_iff_left fun h => absurd h huploads, and_assoc]
  · rw [dataDir_after_iff, userDir_after_iff, forall_prop_of_true rfl, and_assoc, and_assoc,
      and_assoc]

/-- However many forms a session posts, nothing that was there is touched, and only the
three directories come to it, unless they are denied.  From the second form on all is as
it will be.  Then a directory is there just if the session can have one, that is, if
`./users` is a directory and the session's is one or can be made, and the same holds of
the directory itself.  After one form the same holds, but for the directory of the
charts of a session that had none: it is missing also if that of the uploads is
denied. -/
theorem createUserDir_often (denied : Path → Bool) (cwd : Path) (s : SessionID) (fs : FileTree)
    (n : Nat) :
    Grows denied (userDirs cwd s) fs ((createUserDir denied cwd s)^[n] fs) ∧
      (createUserDir denied cwd s)^[n + 2] fs = (createUserDir denied cwd s)^[2] fs ∧
      (∀ d ∈ userDirs cwd s, ((createUserDir denied cwd s)^[n + 2] fs).entry d = some .dir ↔
        fs.entry (usersDir cwd) = some .dir ∧ CanHave denied fs (userDir cwd s) ∧
          CanHave denied fs d) ∧
      ∀ d ∈ userDirs cwd s, (createUserDir denied cwd s fs).entry d = some .dir ↔
        ((createUserDir denied cwd s)^[n + 2] fs).entry d = some .dir ∧
          (d = dataDir cwd s → fs.entry (userDir cwd s) = none →
            denied (uploadsDir cwd s) = false) := by
  have hgrows : ∀ n, Grows denied (userDirs cwd s) fs ((createUserDir denied cwd s)^[n] fs) := by
    intro n
    induction n with
    | zero => exact .refl
    | succ n ih =>
        rw [Function.iterate_succ_apply']
        exact ih.trans (grows_createUserDir denied cwd s _)
  have hlast : (createUserDir denied cwd s)^[n + 2] fs = (createUserDir denied cwd s)^[2] fs := by
    rw [Function.iterate_add_apply]
    exact Function.iterate_fixed (createUserDir_three denied cwd s fs) n
  have hfinal : ∀ d ∈ userDirs cwd s,
      ((createUserDir denied cwd s)^[n + 2] fs).entry d = some .dir ↔
        fs.entry (usersDir cwd) = some .dir ∧ CanHave denied fs (userDir cwd s) ∧
          CanHave denied fs d := by
    intro d hd
    have honce := grows_createUserDir denied cwd s fs
    have husers : usersDir cwd ∉ userDirs cwd s := by
      simp [usersDir, userDirs, uploadsDir, dataDir, userDir]
    rw [hlast]
    refine (dirs_after_iff hd).trans ?_
    rw [honce.of_not_mem husers, canHave_iff honce, canHave_iff honce]
    -- the second form finds a directory of the session
    refine and_iff_left_of_imp fun hcan _ hnone => ?_
    have hmade := userDir_after_iff.mpr ⟨hcan.1, hcan.2.1⟩
    rw [hnone] at hmade
    cases hmade
  refine ⟨hgrows n, hlast, hfinal, fun d hd => ?_⟩
  rw [hfinal d hd]
  exact dirs_after_iff hd

/-! ## What a run needs -/

/-- `open` for writing finds a directory to put the file in, and no directory in its
place. -/
def opensIn (cwd : Path) (s : SessionID) (fs : FileTree) (f : OutFile) : Bool :=
  fs.entry (outPath cwd s f).dropLast = some .dir ∧ fs.entry (outPath cwd s f) ≠ some .dir

theorem outPath_not_mem (cwd : Path) (s : SessionID) (f : OutFile) :
    outPath cwd s f ∉ userDirs cwd s := by
  cases f <;> simp [outPath, userDirs, uploadsDir, dataDir]

/-- On a readable document, the run that a session's first form starts completes just if
there are threads, the directories of the session are there or can be made, and no
directory is in the place of a file.  If the session had no directory, that for the
uploads is needed too, in which the run writes nothing. -/
theorem run_completes_iff {d : Document} (hd : Readable d) (H : HashOrder) {filepath : Text}
    (hpath : isHtmlPath filepath = true) (denied : Path → Bool) (cwd : Path) (s : SessionID)
    (fs : FileTree) (files : Files) :
    Completes H s.text filepath (.ok d) (opensIn cwd s (createUserDir denied cwd s fs)) files ↔
      d ≠ [] ∧ fs.entry (usersDir cwd) = some .dir ∧ CanHave denied fs (userDir cwd s) ∧
        CanHave denied fs (dataDir cwd s) ∧
        (fs.entry (userDir cwd s) = none → denied (uploadsDir cwd s) = false) ∧
        ∀ f, fs.entry (outPath cwd s f) ≠ some .dir := by
  have hplace : ∀ f, (createUserDir denied cwd s fs).entry (outPath cwd s f) =
      fs.entry (outPath cwd s f) := fun f =>
    (grows_createUserDir denied cwd s fs).of_not_mem (outPath_not_mem cwd s f)
  have hopens : ∀ f, opensIn cwd s (createUserDir denied cwd s fs) f = true ↔
      (createUserDir denied cwd s fs).entry (outPath cwd s f).dropLast = some .dir ∧
        fs.entry (outPath cwd s f) ≠ some .dir := by
    intro f
    rw [opensIn, decide_eq_true_eq, hplace]
  have hmessages : (outPath cwd s .messages).dropLast = userDir cwd s := List.dropLast_concat
  have hcharts : ∀ f, f ≠ .messages → (outPath cwd s f).dropLast = dataDir cwd s := by
    intro f hf
    cases f with
    | messages => exact absurd rfl hf
    | timeline => exact List.dropLast_concat
    | hourHistogram => exact List.dropLast_concat
  rw [completes_iff hd H s.text hpath]
  refine and_congr_right fun _ => ?_
  constructor
  · intro hall
    have hplaces := fun f => (hopens f).mp (hall f (by cases f <;> decide))
    have huser := (hplaces .messages).1
    have hdata := (hplaces .timeline).1
    rw [hmessages] at huser
    rw [hcharts _ (by decide)] at hdata
    obtain ⟨husers, hown⟩ := userDir_after_iff.mp huser
    obtain ⟨_, hhave, huploads⟩ := dataDir_after_iff.mp hdata
    exact ⟨husers, hown, hhave, huploads, fun f => (hplaces f).2⟩
  · rintro ⟨husers, hown, hhave, huploads, hfree⟩ f _
    have huser := userDir_after_iff.mpr ⟨husers, hown⟩
    refine (hopens f).mpr ⟨?_, hfree f⟩
    by_cases hf : f = .messages
    · rw [hf, hmessages]
      exact huser
    · rw [hcharts f hf]
      exact dataDir_after_iff.mpr ⟨huser, hhave, huploads⟩

/-- A tree that holds a file in `/srv/users`. -/
def freshTree : FileTree :=
  probe ["srv".toList, "users".toList] ["README.md".toList] [] (List.cons_ne_nil _ _) (by decide)

/-- On it the run that the first form starts completes, but not when `uploads` is denied. -/
theorem run_completes_iff_fresh :
    Completes .insertion sampleSession.text "messages.htm".toList (.ok [[]])
        (opensIn ["srv".toList] sampleSession
          (createUserDir (fun _ => false) ["srv".toList] sampleSession freshTree)) earlierFiles ∧
      ¬Completes .insertion sampleSession.text "messages.htm".toList (.ok [[]])
        (opensIn ["srv".toList] sampleSession
          (createUserDir (fun p => p = uploadsDir ["srv".toList] sampleSession) ["srv".toList]
            sampleSession freshTree)) earlierFiles := by
  have hreadable : Readable [[]] := by
    intro t ht m hm
    rw [List.mem_singleton.mp ht] at hm
    cases hm
  have hpath : isHtmlPath "messages.htm".toList = true := by decide
  constructor
  · refine (run_completes_iff hreadable .insertion hpath _ _ _ _ _).mpr
      ⟨List.cons_ne_nil _ _, by decide, Or.inr ⟨by decide, rfl⟩, Or.inr ⟨by decide, rfl⟩,
        fun _ => rfl, fun f => ?_⟩
    cases f <;> decide
  · intro hcompletes
    obtain ⟨_, _, _, _, huploads, _⟩ :=
      (run_completes_iff hreadable .insertion hpath _ _ _ _ _).mp hcompletes
    exact absurd (huploads (by decide)) (by decide)

end Server
