import Brokkr.Common

/-!
# Messages of the remote execution API

The fields of the `build.bazel.remote.execution.v2` messages that the modelled
code reads.  Digests in them are `RawDigest`: nobody has checked them.
-/

namespace Brokkr

/-- One requirement on a worker. -/
structure Property where
  name : String
  /-- Value it must have. -/
  value : String
  deriving DecidableEq, Repr

/-- What an action requires of a worker. -/
structure Platform where
  properties : List Property := []
  deriving DecidableEq, Repr

/-- An action. -/
structure Action where
  commandDigest : Option RawDigest := none
  inputRootDigest : Option RawDigest := none
  /-- Timeout, in seconds. -/
  timeout : Option ℤ := none
  platform : Option Platform := none
  deriving DecidableEq, Repr

/-- A command. -/
structure Command where
  /-- Platform requirements, in the place where older clients put them. -/
  platform : Option Platform := none
  deriving DecidableEq, Repr

/-- A file an action produced. -/
structure OutputFile where
  digest : Option RawDigest := none
  deriving DecidableEq, Repr

/-- A directory an action produced. -/
structure OutputDirectory where
  treeDigest : Option RawDigest := none
  rootDirectoryDigest : Option RawDigest := none
  deriving DecidableEq, Repr

/-- What an action produced. -/
structure ActionResult where
  outputFiles : List OutputFile := []
  outputDirectories : List OutputDirectory := []
  stdoutDigest : Option RawDigest := none
  stderrDigest : Option RawDigest := none
  exitCode : ℤ := 0
  deriving DecidableEq, Repr

/-- A file of an input tree. -/
structure FileNode where
  name : String
  digest : Option RawDigest := none
  isExecutable : Bool := false
  deriving DecidableEq, Repr

/-- A directory inside an input tree. -/
structure DirectoryNode where
  name : String
  digest : Option RawDigest := none
  deriving DecidableEq, Repr

/-- A symbolic link of an input tree. -/
structure SymlinkNode where
  name : String
  target : String
  deriving DecidableEq, Repr

/-- A directory of an input tree. -/
structure Directory where
  files : List FileNode := []
  directories : List DirectoryNode := []
  symlinks : List SymlinkNode := []
  deriving DecidableEq, Repr

end Brokkr
