import TypeFlow.Config.Schema
import TypeFlow.Files.Entry

/-! Finding the configuration of a folder. The files of the folder and of every folder above it are
the layers, the file in the folder itself being the innermost. -/

namespace TypeFlow.Config

def fileName : Text := "jitopt.conf"

inductive Error where
  /-- The file is empty for a text that came from none. -/
  | flawed (file : Text) (flaw : Flaw)
  | unread (error : Files.Error)
  | unmerged (fault : Fault)
  deriving DecidableEq, Repr

/-- Whether an error ends the run on the spot. -/
def Error.isCrash : Error → Bool
  | flawed _ (.crash _) | unmerged _ => true
  | _ => false

def Error.message : Error → Text
  | flawed _ (.crash c) => c.message
  | flawed file flaw =>
    if file.isEmpty then "invalid configuration: " ++ flaw.message
    else "invalid configuration in " ++ file ++ ": " ++ flaw.message
  | unread error => error.message
  | unmerged fault => fault.message

/-- The layer at a path, if there is one. -/
def layerAt {m : Type → Type} [Monad m] (look : Files.Look m) (path : Text) :
    ExceptT Error m (Option Layer) := do
  match ← look path with
  | .error .missing => return none
  | .error cause => throw (.unread ⟨.opening, path, cause⟩)
  | .ok .folder => throw (.flawed path .malformed)
  | .ok (.file content) =>
    match Layer.read content with
    | .ok layer => return some layer
    | .error flaw => throw (.flawed path flaw)

/-- The layers of a folder and of the folders above it, the innermost first. -/
def layersUp {m : Type → Type} [Monad m] (look : Files.Look m) :
    Nat → Text → ExceptT Error m (List Layer)
  | 0, _ => return []
  | steps + 1, folder => do
    if folder.isEmpty then return []
    let layer ← layerAt look (Path.join folder fileName)
    let above := Path.parent folder
    let rest ← if above = folder then pure [] else layersUp look steps above
    return layer.toList ++ rest

/-- Merges layers, the innermost first, over the standard configuration. -/
def ofLayers (layers : List Layer) : Except Fault Config :=
  mergeAll ({ values := standard } :: layers.reverse)

/-- The configuration of a folder. Going up shortens a path or makes it a single dot. -/
def load {m : Type → Type} [Monad m] (look : Files.Look m) (folder : Text) :
    ExceptT Error m Config := do
  let layers ← layersUp look (folder.length + 2) folder
  liftExcept ((ofLayers layers).mapError .unmerged)
where
  liftExcept {m : Type → Type} [Monad m] : Except Error Config → ExceptT Error m Config
    | .ok c => return c
    | .error e => throw e

/-- The configuration of a text over the standard one. -/
def parse (t : Text) : Except Error Config :=
  match Layer.read t with
  | .error flaw => .error (.flawed [] flaw)
  | .ok layer => (ofLayers [layer]).mapError .unmerged

/-- Merges the layers of texts, the outermost first and without the standard configuration. -/
def parseAll (ts : List Text) : Except Error Config := do
  let layers ← ts.mapM fun t => (Layer.read t).mapError (.flawed [])
  (mergeAll layers).mapError .unmerged

end TypeFlow.Config
