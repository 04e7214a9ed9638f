import Pinfile.Files.Tree

/-!
# Programs

What the program does to the world outside is a value: a tree of requests, each with what to do for
every answer to it. It can read and write files, make directories, ask what stands at a path, print
results and note what it is doing; there is nothing else it could do. `run` carries a program out on
a model of that world, and every statement about what an operation changes is one about `run`.

Programs are put together with `do`; `run_bind` says that this runs the parts one after the other.
-/

namespace Pinfile

/-- A program that ends with an `α`. -/
inductive Program (α : Type) where
  /-- The end. -/
  | done (a : α)
  /-- Reads the text of a file. -/
  | read (p : Path) (next : Except FileError String → Program α)
  /-- Asks what stands at a path. -/
  | kind (p : Path) (next : Option FileTree.Kind → Program α)
  /-- Makes a directory. -/
  | makeDir (p : Path) (next : Except FileError Unit → Program α)
  /-- Writes a text to a file. -/
  | write (p : Path) (text : String) (next : Except FileError Unit → Program α)
  /-- Prints a result. -/
  | print (text : String) (next : Program α)
  /-- Notes what is being done. -/
  | note (text : String) (next : Program α)

/-- The world outside: the files, and what was printed and noted so far. -/
structure World where
  tree : FileTree := .empty
  printed : String := ""
  noted : String := ""

namespace Program

variable {α β γ : Type}

/-! ## Putting programs together -/

/-- One program after another. -/
def andThen (p : Program α) (f : α → Program β) : Program β :=
  match p with
  | done a => f a
  | read path next => .read path fun r => (next r).andThen f
  | kind path next => .kind path fun r => (next r).andThen f
  | makeDir path next => .makeDir path fun r => (next r).andThen f
  | write path text next => .write path text fun r => (next r).andThen f
  | print text next => .print text (next.andThen f)
  | note text next => .note text (next.andThen f)

instance : Monad Program where
  pure := done
  bind := andThen

@[simp] theorem done_eq_pure (a : α) : (done a : Program α) = pure a := rfl

@[simp] theorem andThen_eq_bind (p : Program α) (f : α → Program β) : p.andThen f = p >>= f := rfl

theorem andThen_done (p : Program α) : p.andThen done = p := by
  induction p with
  | done a => rfl
  | read path next ih => exact congrArg (Program.read path) (funext ih)
  | kind path next ih => exact congrArg (Program.kind path) (funext ih)
  | makeDir path next ih => exact congrArg (Program.makeDir path) (funext ih)
  | write path text next ih => exact congrArg (Program.write path text) (funext ih)
  | print text next ih => exact congrArg (Program.print text) ih
  | note text next ih => exact congrArg (Program.note text) ih

theorem andThen_assoc (p : Program α) (f : α → Program β) (g : β → Program γ) :
    (p.andThen f).andThen g = p.andThen fun a => (f a).andThen g := by
  induction p with
  | done a => rfl
  | read path next ih => exact congrArg (Program.read path) (funext ih)
  | kind path next ih => exact congrArg (Program.kind path) (funext ih)
  | makeDir path next ih => exact congrArg (Program.makeDir path) (funext ih)
  | write path text next ih => exact congrArg (Program.write path text) (funext ih)
  | print text next ih => exact congrArg (Program.print text) ih
  | note text next ih => exact congrArg (Program.note text) ih

instance : LawfulMonad Program :=
  LawfulMonad.mk' Program (fun p => andThen_done p) (fun _ _ => rfl)
    (fun p f g => andThen_assoc p f g)

/-! ## Single requests -/

/-- Reads the text of a file. -/
def readText (p : Path) : Program (Except FileError String) := .read p .done

/-- Asks what stands at a path. -/
def kindAt (p : Path) : Program (Option FileTree.Kind) := .kind p .done

/-- Makes a directory. -/
def makeDirAt (p : Path) : Program (Except FileError Unit) := .makeDir p .done

/-- Writes a text to a file whose directory exists. -/
def writeAt (p : Path) (text : String) : Program (Except FileError Unit) := .write p text .done

/-- Prints a result. -/
def printText (text : String) : Program Unit := .print text (.done ())

/-- Notes what is being done. -/
def noteText (text : String) : Program Unit := .note text (.done ())

/-- Asks whether a file stands at a path. -/
def isFile (p : Path) : Program Bool := (· == some .file) <$> kindAt p

/-- Asks whether a directory stands at a path. -/
def isDirectory (p : Path) : Program Bool := (· == some .directory) <$> kindAt p

/-! ## Running -/

/-- The answer to a request that may change the tree, and the world after it. -/
def answer (w : World) : Except FileError FileTree → Except FileError Unit × World
  | .ok tree => (.ok (), { w with tree })
  | .error e => (.error e, w)

/-- Carries a program out. -/
def run (p : Program α) (w : World) : α × World :=
  match p with
  | done a => (a, w)
  | read path next => (next (w.tree.read path)).run w
  | kind path next => (next (w.tree.kind? path)).run w
  | makeDir path next =>
    let (r, w) := answer w (w.tree.makeDir path)
    (next r).run w
  | write path text next =>
    let (r, w) := answer w (w.tree.write path text)
    (next r).run w
  | print text next => next.run { w with printed := w.printed ++ text }
  | note text next => next.run { w with noted := w.noted ++ text }

@[simp] theorem run_pure (a : α) (w : World) : (pure a : Program α).run w = (a, w) := rfl

/-- A program made of two is run by running one after the other. -/
@[simp] theorem run_bind (p : Program α) (f : α → Program β) (w : World) :
    (p >>= f).run w = (f (p.run w).1).run (p.run w).2 := by
  change (p.andThen f).run w = _
  induction p generalizing w with
  | done a => rfl
  | read path next ih => exact ih _ _
  | kind path next ih => exact ih _ _
  | makeDir path next ih => exact ih _ _
  | write path text next ih => exact ih _ _
  | print text next ih => exact ih _
  | note text next ih => exact ih _

@[simp] theorem run_map (f : α → β) (p : Program α) (w : World) :
    (f <$> p).run w = (f (p.run w).1, (p.run w).2) := by
  rw [map_eq_pure_bind, run_bind, run_pure]

@[simp] theorem run_readText (p : Path) (w : World) : (readText p).run w = (w.tree.read p, w) := rfl

@[simp] theorem run_kindAt (p : Path) (w : World) : (kindAt p).run w = (w.tree.kind? p, w) := rfl

@[simp] theorem run_makeDirAt (p : Path) (w : World) :
    (makeDirAt p).run w = answer w (w.tree.makeDir p) := rfl

@[simp] theorem run_writeAt (p : Path) (text : String) (w : World) :
    (writeAt p text).run w = answer w (w.tree.write p text) := rfl

@[simp] theorem run_printText (text : String) (w : World) :
    (printText text).run w = ((), { w with printed := w.printed ++ text }) := rfl

@[simp] theorem run_noteText (text : String) (w : World) :
    (noteText text).run w = ((), { w with noted := w.noted ++ text }) := rfl

@[simp] theorem run_isFile (p : Path) (w : World) :
    (isFile p).run w = (w.tree.isFile p, w) := by
  simp [isFile, FileTree.isFile]

end Program
end Pinfile
