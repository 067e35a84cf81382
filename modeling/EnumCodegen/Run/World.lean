import EnumCodegen.Run.Reconcile
import EnumCodegen.Storage.FileSystem

/-! A host that is a value: runs in it are functions and can be compared.
The equations below say what each effect answers and what world it leaves. A temporary
file can be made or not, as the file system has it; one that was made gives back the
content it was made for, and is gone when it is discarded. -/

namespace EnumCodegen

/-- The surroundings of a run. `letter` is an endless sequence of letters, of which
`drawn` have been used. The log has its earliest record first, and so have the paths
that file operations were for. -/
structure World where
  files : FileSystem
  letter : Nat → Char
  drawn : Nat := 0
  log : List LogRecord := []
  touched : List Path := []

namespace World

def letters (w : World) (n : Nat) : Text := (List.range n).map fun i => w.letter (w.drawn + i)

/-- The world after a file operation for a path, which left these files. -/
def touch (w : World) (path : Path) (files : FileSystem) : World :=
  { w with files, touched := w.touched ++ [path] }

/-- A world with files in its current directory, given by name and text, and a random
source that knows one letter. -/
def holding (files : List (Text × Text)) : World where
  files :=
    { FileSystem.fresh with
      entries :=
        files.map (fun (name, text) =>
          (Utf8.encode name :: FileSystem.fresh.current, .file (Utf8.encode text))) ++
        FileSystem.fresh.entries }
  letter _ := 'a'

end World

/-- A run in a world that is a value. -/
abbrev Simulated := StateM World

/-- An artifact once it is staged in a world, where no temporary file has a name. -/
def Artifact.staged (a : Artifact) : Staged := ⟨a, ⟨[]⟩⟩

instance : Host Simulated where
  readFile path := ExceptT.mk fun w => (w.files.read path, w.touch path w.files)
  writeFile path content := ExceptT.mk fun w =>
    match w.files.write path content with
    | .ok files => (.ok (), w.touch path files)
    | .error e => (.error e, w.touch path w.files)
  makeDirectories path := ExceptT.mk fun w =>
    let (answer, files) := w.files.makeDirectories path
    (answer, w.touch path files)
  stage content := ExceptT.mk fun w => ((w.files.stage content).map fun _ => ⟨[]⟩, w)
  readStaged {content} _ := pure content
  discard _ := pure ()
  letters n := fun w => (w.letters n, { w with drawn := w.drawn + n })
  record r := fun w => ((), { w with log := w.log ++ [r] })

namespace World

/-- The answer of a run that starts in a world, and the world it leaves. -/
def after {ε α : Type} (w : World) (run : ExceptT ε Simulated α) : Except ε α × World := run w

/-- Goes on after a run, unless it failed. -/
def andThen {ε α β : Type} (r : Except ε α × World) (next : α → World → Except ε β × World) :
    Except ε β × World :=
  match r with
  | (.ok a, w) => next a w
  | (.error e, w) => (.error e, w)

section Equations

variable {ε ε' α β : Type} (w : World)

@[simp] theorem andThen_ok (a : α) (next : α → World → Except ε β × World) :
    andThen (.ok a, w) next = next a w := rfl

@[simp] theorem andThen_error (e : ε) (next : α → World → Except ε β × World) :
    andThen (.error e, w) next = (.error e, w) := rfl

@[simp] theorem after_pure (a : α) : w.after (pure a : ExceptT ε Simulated α) = (.ok a, w) := rfl

@[simp] theorem after_throw (e : ε) :
    w.after (throw e : ExceptT ε Simulated α) = (.error e, w) := rfl

@[simp] theorem after_bind (x : ExceptT ε Simulated α) (f : α → ExceptT ε Simulated β) :
    w.after (x >>= f) = andThen (w.after x) fun a w => w.after (f a) := by
  change (match x w with
    | (a, w) => (ExceptT.bindCont f a : Simulated (Except ε β)) w) = andThen (x w) _
  rcases x w with ⟨_ | _, _⟩ <;> rfl

@[simp] theorem after_map (x : ExceptT ε Simulated α) (f : α → β) :
    w.after (f <$> x) = andThen (w.after x) fun a w => (.ok (f a), w) := by
  rw [map_eq_pure_bind, after_bind]
  rfl

@[simp] theorem after_adapt (f : ε → ε') (x : ExceptT ε Simulated α) :
    w.after (x.adapt f) = ((w.after x).1.mapError f, (w.after x).2) := rfl

theorem after_tryCatch (x : ExceptT ε Simulated α) (handler : ε → ExceptT ε Simulated α) :
    w.after (tryCatch x handler) =
      match w.after x with
      | (.ok a, w) => (.ok a, w)
      | (.error e, w) => w.after (handler e) := by
  change (match x w with
    | (r, w) => (match r with
      | .ok a => pure (.ok a)
      | .error e => handler e : Simulated (Except ε α)) w) = _
  unfold after
  rcases x w with ⟨_ | _, _⟩ <;> rfl

theorem after_ite (p : Prop) [Decidable p] (x y : ExceptT ε Simulated α) :
    w.after (if p then x else y) = if p then w.after x else w.after y := by
  split <;> rfl

@[simp] theorem after_readFile (path : Path) :
    w.after (Host.readFile path) = (w.files.read path, w.touch path w.files) := rfl

@[simp] theorem after_writeFile (path : Path) (content : Bytes) :
    w.after (Host.writeFile path content) =
      match w.files.write path content with
      | .ok files => (.ok (), w.touch path files)
      | .error e => (.error e, w.touch path w.files) := rfl

@[simp] theorem after_makeDirectories (path : Path) :
    w.after (Host.makeDirectories path) =
      ((w.files.makeDirectories path).1, w.touch path (w.files.makeDirectories path).2) := rfl

@[simp] theorem after_stage (content : Bytes) :
    w.after (Host.stage content) = ((w.files.stage content).map fun _ => ⟨[]⟩, w) := rfl

@[simp] theorem after_readStaged {content : Bytes} (file : Temporary content) :
    w.after (Host.readStaged file) = (.ok content, w) := rfl

@[simp] theorem after_during (s : Staged) (action : ExceptT ε Simulated α) :
    w.after (s.during action) = w.after action := rfl

@[simp] theorem after_note (spans : List Span) (event : Event) :
    w.after (note spans event : ExceptT ε Simulated Unit) =
      (.ok (), { w with log := w.log ++ [⟨spans, event⟩] }) := rfl

@[simp] theorem after_noteAll (spans : List Span) (events : List Event) :
    w.after (noteAll spans events : ExceptT ε Simulated Unit) =
      (.ok (), { w with log := w.log ++ events.map (LogRecord.mk spans) }) := by
  unfold noteAll
  induction events generalizing w with
  | nil => simp
  | cons event events ih => simp [ih]

end Equations

end World

end EnumCodegen
