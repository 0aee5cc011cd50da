import Chip8.Text.Basic

/-!
# File Names

The end of a file name behind its last dot tells what kind of file it is. A dot
at the start of a name, as in `.asm`, does not count. Slashes at the end of a
path do not change which file it leads to.

## Main definitions

* `Path.extension?`: The extension of a file name.
* `Path.withExtension`: A file name with another extension.
-/

namespace Chip8

namespace Path

/-- A path, written backwards, that does not begin with a slash or with the
    dot of a folder that stands for itself. -/
def dropSlashes : Text → Text
  | '/' :: rest => dropSlashes rest
  | '.' :: '/' :: rest => dropSlashes rest
  | path => path

/-- A path cut behind its last slash, of which those at its end do not
    count. -/
def splitFolder (path : Text) : Text × Text :=
  let backwards := dropSlashes path.reverse
  let file := backwards.takeWhile (· ≠ '/')
  ((backwards.drop file.length).reverse, file.reverse)

/-- A file name cut at its last dot, which must not be its first character. -/
def splitExtension? (file : Text) : Option (Text × Text) :=
  let tail := file.reverse.takeWhile (· ≠ '.')
  match file.reverse.drop tail.length with
  | '.' :: stem => if stem.isEmpty then none else some (stem.reverse, tail.reverse)
  | _ => none

/-- Whether the last part of a path names a file, not a folder. -/
def isFileName (file : Text) : Bool :=
  !(file.isEmpty || file == ".".toList || file == "..".toList)

/-- The extension of the file that a path leads to. -/
def extension? (path : Text) : Option Text :=
  let file := (splitFolder path).2
  if isFileName file then (splitExtension? file).map (·.2) else none

/-- The path with another extension, or with one added if it has none. What
    takes it is the name up to its last dot, and that must itself name a file:
    `..asm` without its extension is the parent folder, which takes none. -/
def withExtension (path extension : Text) : Text :=
  let (folder, file) := splitFolder path
  if isFileName file then
    let stem := match splitExtension? file with
      | some (stem, _) => stem
      | none => file
    let dotted := stem ++ ['.']
    folder ++ if isFileName dotted then dotted ++ extension else dotted
  else path

end Path

end Chip8
