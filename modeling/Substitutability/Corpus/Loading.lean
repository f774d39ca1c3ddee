import Substitutability.Action
import Substitutability.Corpus.Basic

/-!
# Loading corpora

A corpus is one text file or all text files of a folder, in the order of their
paths. Without a sentence there is no corpus.
-/

set_option autoImplicit false

namespace Substitutability

structure Loader where
  format : TextFormat
  verbose : Bool

namespace Loader

/-- The text of a file; a folder reads as an empty text. -/
def readText (path : Bytes) : Job Bytes := do
  match ← Job.read path with
  | .text content => return content
  | .folder => return []
  | .nothing => Job.failInput (.corpusUnopened path)

def announce (l : Loader) (text : Bytes) : Job Unit :=
  if l.verbose then Job.print (text ++ [Bytes.newline]) else pure ()

def announceFile (l : Loader) (path : Bytes) : Job Unit :=
  l.announce (utf8 "Loading corpus file: " ++ path)

def loadFile (l : Loader) (path : Bytes) : Job Corpus := do
  l.announceFile path
  let text ← readText path
  let corpus := l.format.corpus (Path.fileName path) path text
  l.announce (utf8 "  Sentences: " ++ Bytes.ofNat corpus.size)
  return corpus

def readAll (l : Loader) : List Bytes → Job (List Sentence)
  | [] => return []
  | path :: rest => do
    l.announceFile path
    let text ← readText path
    let more ← readAll l rest
    return l.format.sentences path text ++ more

def pathsIn (folder : Bytes) (names : List Bytes) : List Bytes :=
  (names.map (Path.child folder)).mergeSort fun a b => compare a b != .gt

def folderName (folder : Bytes) : Bytes :=
  match Path.fileName folder with
  | [] => folder
  | name => name

def loadFolder (l : Loader) (folder : Bytes) : Job Corpus := do
  match ← Job.names folder with
  | .error fault => Job.failInput (.folderUnreadable folder fault)
  | .ok names =>
    let paths := pathsIn folder names
    let sentences ← l.readAll paths
    l.announce (utf8 "  Files: " ++ Bytes.ofNat paths.length ++ utf8 ", sentences: " ++
      Bytes.ofNat sentences.length)
    return ⟨folderName folder, sentences, l.format.granularity.separator⟩

def load (l : Loader) (path : Bytes) : Job Corpus := do
  let corpus ← match ← Job.status path with
    | .folder => l.loadFolder path
    | .file => l.loadFile path
    | .absent => Job.failInput (.pathMissing path)
  if corpus.sentences = [] then Job.failInput (.noSentences path) else return corpus

end Loader

end Substitutability
