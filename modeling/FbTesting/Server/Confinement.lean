import FbTesting.Base.Segments
import FbTesting.Server.Machine
import FbTesting.Server.Routes

/-!
# Which files requests name

Two routes take the name of a file from the request.  An upload is stored at the
name that the client gives for the file, below the `uploads` directory of the
session, and the catch-all reads the path name of the request target below the
working directory.  Neither looks at dot segments, and formidable and `url.parse`
leave them in.  The path name is what is behind the user info and the host that a
target may begin with.

So what decides is where the components of the name lead (`relative`).  They may
go up, out of the directory, and be outside in the end.  They stay inside when
they do not go up, and also when they come back down the same way.
-/

namespace Server

open Base Node Analyser

/-! ## Uploads -/

/-- What formidable may make of the file name that a client sends: it is taken as
it is, or from after the last backslash on. -/
def Delivered (filename name : Text) : Prop :=
  name = filename ∨ '\\' ∉ name ∧ ∃ cut, filename = cut ++ '\\' :: name

/-- `file.path`, as `form.on('fileBegin')` sets it. -/
def storedAt (sessionID name : Text) : Text :=
  "./users/".toList ++ sessionID ++ "/uploads/".toList ++ name

theorem storedAt_eq (sessionID name : Text) : storedAt sessionID name =
    "./users/".toList ++ sessionID ++ "/uploads/".toList ++ name := rfl

/-- The path the analyser is given is the one the file was stored at. -/
theorem filepath_eq_storedAt (s : SessionID) (u : Upload) {name : Text}
    (h : u.filename = some name) : u.filepath s = storedAt s.text name := by
  change "./users/".toList ++ s.text ++ "/uploads/".toList ++
    u.filename.getD "undefined".toList = _
  rw [h]
  exact (storedAt_eq s.text name).symm

/-- The directory for the uploads of a session. -/
def uploadsDir (cwd : Path) (s : SessionID) : Path := userDir cwd s ++ ["uploads".toList]

/-- The directory for the charts of a session. -/
def dataDir (cwd : Path) (s : SessionID) : Path := userDir cwd s ++ ["data".toList]

/-- The place of a file of the analyser. -/
def outPath (cwd : Path) (s : SessionID) : OutFile → Path
  | .messages => userDir cwd s ++ ["messages.json".toList]
  | .timeline => dataDir cwd s ++ ["hourhisto.json".toList]
  | .hourHistogram => dataDir cwd s ++ ["wordcount.json".toList]

/-- The place a path of the program leads to. -/
def resolve (cwd : Path) (path : Text) : Path := walkEnd cwd (path.splitOn '/')

/-- An ID has no slash. -/
theorem slash_not_mem (s : SessionID) : '/' ∉ s.text := by
  intro hmem
  exact absurd (s.digits '/' hmem) (by decide)

theorem splitOn_userPath (s : SessionID) (rest : Text) :
    ("./users/".toList ++ s.text ++ '/' :: rest).splitOn '/' =
      ".".toList :: "users".toList :: s.text :: rest.splitOn '/' := by
  have htext : "./users/".toList ++ s.text ++ '/' :: rest =
      ".".toList ++ '/' :: ("users".toList ++ '/' :: (s.text ++ '/' :: rest)) := by
    have husers : "./users/".toList = ".".toList ++ '/' :: ("users".toList ++ ['/']) := by decide
    rw [husers]
    simp only [List.append_assoc, List.cons_append, List.nil_append]
  rw [htext, splitOn_append_cons (by decide), splitOn_append_cons (by decide),
    splitOn_append_cons (slash_not_mem s)]

/-- A component that is a name leads one level down. -/
theorem walkStep_name (p : Path) {c : Text} (h : 2 < c.length) : walkStep p c = p ++ [c] := by
  have hstay : ¬(c = [] ∨ c = ['.']) := by
    rintro (rfl | rfl) <;> exact absurd h (by decide)
  have hup : c ≠ ['.', '.'] := by
    rintro rfl
    exact absurd h (by decide)
  rw [walkStep, if_neg hstay, if_neg hup]

/-- A path in the directory of a session is walked from there on. -/
theorem resolve_userPath (cwd : Path) (s : SessionID) (rest : Text) :
    resolve cwd ("./users/".toList ++ s.text ++ '/' :: rest) =
      walkEnd (userDir cwd s) (rest.splitOn '/') := by
  have hid : 2 < s.text.length := by
    rw [s.length_eq]
    decide
  rw [resolve, splitOn_userPath]
  change walkEnd (walkStep (walkStep cwd "users".toList) s.text) _ = _
  rw [walkStep_name cwd (by decide), walkStep_name _ hid, userDir, List.append_assoc cwd]
  rfl

/-- An upload is walked from the directory for uploads on. -/
theorem resolve_storedAt (cwd : Path) (s : SessionID) (name : Text) :
    resolve cwd (storedAt s.text name) = walkEnd (uploadsDir cwd s) (name.splitOn '/') := by
  have htext : storedAt s.text name =
      "./users/".toList ++ s.text ++ '/' :: ("uploads".toList ++ '/' :: name) := by
    have huploads : "/uploads/".toList = '/' :: ("uploads".toList ++ ['/']) := by decide
    rw [storedAt_eq, huploads]
    simp only [List.append_assoc, List.cons_append, List.nil_append]
  rw [htext, resolve_userPath, splitOn_append_cons (by decide)]
  change walkEnd (walkStep (userDir cwd s) "uploads".toList) _ = _
  rw [walkStep_name (userDir cwd s) (c := "uploads".toList) (by decide), uploadsDir]

/-- An upload is stored below its session's directory for uploads exactly when
the file name leads there: where its components go up, the names after that have
to be those of the levels that were left, and at least one more follows. -/
theorem stored_below_uploads_iff (cwd : Path) (s : SessionID) (name : Text) :
    Below (uploadsDir cwd s) (resolve cwd (storedAt s.text name)) ↔
      Below ((relative (name.splitOn '/')).left (uploadsDir cwd s))
        (relative (name.splitOn '/')).names := by
  rw [resolve_storedAt, below_walkEnd_iff]

/-- The path of a file of the analyser. -/
def outputPath (key : Text) (f : OutFile) : Text := "./users/".toList ++ key ++ outputDirs f

/-- It leads to the file's place. -/
theorem resolve_outputPath (cwd : Path) (s : SessionID) (f : OutFile) :
    resolve cwd (outputPath s.text f) = outPath cwd s f := by
  cases f with
  | messages =>
      refine (resolve_userPath cwd s "messages.json".toList).trans ?_
      exact walkStep_name (userDir cwd s) (c := "messages.json".toList) (by decide)
  | timeline =>
      refine (resolve_userPath cwd s "data/hourhisto.json".toList).trans ?_
      change walkStep (walkStep (userDir cwd s) "data".toList) "hourhisto.json".toList = _
      rw [walkStep_name (userDir cwd s) (by decide), walkStep_name _ (by decide)]
      rfl
  | hourHistogram =>
      refine (resolve_userPath cwd s "data/wordcount.json".toList).trans ?_
      change walkStep (walkStep (userDir cwd s) "data".toList) "wordcount.json".toList = _
      rw [walkStep_name (userDir cwd s) (by decide), walkStep_name _ (by decide)]
      rfl

/-- No file of an analyser is below a directory for uploads. -/
theorem not_below_outPath (cwd : Path) (s t : SessionID) (f : OutFile) :
    ¬Below (uploadsDir cwd s) (outPath cwd t f) := by
  intro h
  obtain ⟨rest, hrest⟩ := h.1
  cases f <;> simp [uploadsDir, outPath, dataDir, userDir] at hrest

/-- The messages of another session. -/
def craftedName : Text := "../../2c3d/messages.json".toList

/-- An upload with a crafted file name replaces the messages of another session. -/
theorem upload_escapes :
    ¬∀ name, Delivered craftedName name →
      Below (uploadsDir ["srv".toList] sampleSession)
        (resolve ["srv".toList] (storedAt sampleSession.text name)) := by
  intro h
  have hbelow := h craftedName (Or.inl rfl)
  revert hbelow
  decide

/-! ## The catch-all -/

/-- The path that the catch-all reads, for a target that it gets. -/
def readPath (cwd : Path) (url : Text) : Option Path :=
  (uriRead url).map fun uri => resolve cwd ("./".toList ++ uri)

/-- The catch-all answers with a file only if it is at this path. -/
theorem respond_reads (mime : Text → Text) {cwd : Path} {A : SessionID} {url : Text} {σ : WebState}
    {uri : Text} (huri : uriRead url = some uri) (h : respond mime cwd A url σ ≠ .notFound) :
    ∃ p ∈ readPath cwd url, ∃ content, σ.files.entry p = some (.file content) := by
  obtain ⟨found, -, hfound⟩ := respond_of_uriRead mime cwd huri
  rw [hfound] at h
  cases hread : σ.files.readFile cwd (components uri) with
  | none =>
      rw [hread] at h
      exact absurd rfl h
  | some content =>
      exact ⟨_, Option.mem_map_of_mem _ huri, content, FileTree.entry_of_readFile hread⟩

/-- The components of `'./' + uri` lead where those of `uri` lead. -/
theorem resolve_uri (cwd : Path) (uri : Text) :
    resolve cwd ("./".toList ++ uri) = walkEnd cwd (uri.splitOn '/') := by
  have htext : "./".toList ++ uri = ".".toList ++ '/' :: uri := rfl
  rw [resolve, htext, splitOn_append_cons (by decide)]
  rfl

/-- The path that is read for a target is in the working directory exactly when,
for a target that the catch-all gets, the path name leads there: where its
components go up, the names after that begin with those of the levels that were
left. -/
theorem read_inside_cwd_iff (cwd : Path) (url : Text) :
    (∀ p ∈ readPath cwd url, cwd <+: p) ↔
      ∀ uri ∈ uriRead url,
        (relative (uri.splitOn '/')).left cwd <+: (relative (uri.splitOn '/')).names := by
  rw [readPath]
  cases uriRead url with
  | none => exact iff_of_true nofun nofun
  | some uri =>
      rw [Option.map_some, resolve_uri]
      constructor
      · intro h uri' huri
        cases huri
        exact (isPrefix_walkEnd_iff cwd _).mp (h _ rfl)
      · intro h p hp
        cases hp
        exact (isPrefix_walkEnd_iff cwd _).mpr (h uri rfl)

/-- A target with dot segments reads a file outside. -/
theorem read_escapes :
    ¬∀ p ∈ readPath ["srv".toList] "/../etc/passwd".toList, ["srv".toList] <+: p := by
  intro h
  have hin := h ["etc".toList, "passwd".toList] (by decide)
  revert hin
  decide

end Server
