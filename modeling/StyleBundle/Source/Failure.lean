import StyleBundle.Text.Basic

/-!
# Failures of file operations

`OsError` names the refusals of the operating system, `IoFailure` everything that can go wrong
when a file or directory is used.
-/

namespace StyleBundle

/-- A refusal of the operating system. -/
inductive OsError where
  /-- Nothing has that name. -/
  | noEntry
  /-- The file may not be used that way. -/
  | denied
  /-- The entry is in use. -/
  | busy
  /-- The name is taken. -/
  | alreadyExists
  /-- A step of the path is not a directory. -/
  | notDirectory
  /-- The path names a directory. -/
  | isDirectory
  /-- The request makes no sense for this path. -/
  | invalidArgument
  /-- A name or the whole path is too long. -/
  | nameTooLong
  /-- The directory still has entries. -/
  | notEmpty
deriving DecidableEq

namespace OsError

/-- The number of the error. -/
def number : OsError → Nat
  | noEntry => 2
  | denied => 13
  | busy => 16
  | alreadyExists => 17
  | notDirectory => 20
  | isDirectory => 21
  | invalidArgument => 22
  | nameTooLong => 36
  | notEmpty => 39

/-- The description of the error. -/
def description : OsError → Text
  | noEntry => "No such file or directory".toList
  | denied => "Permission denied".toList
  | busy => "Device or resource busy".toList
  | alreadyExists => "File exists".toList
  | notDirectory => "Not a directory".toList
  | isDirectory => "Is a directory".toList
  | invalidArgument => "Invalid argument".toList
  | nameTooLong => "File name too long".toList
  | notEmpty => "Directory not empty".toList

/-- The description with the number. -/
def message (e : OsError) : Text :=
  e.description ++ " (os error ".toList ++ Text.ofNat e.number ++ [')']

end OsError

/-- Why a file or directory could not be used. -/
inductive IoFailure where
  /-- The operating system refused. -/
  | os (cause : OsError)
  /-- The content is not UTF-8. -/
  | notUtf8
  /-- The path holds a NUL character. -/
  | nulInPath
  /-- A failure that is known by its description only. -/
  | described (text : Text)
deriving DecidableEq

/-- The wording of a failure. -/
def IoFailure.message : IoFailure → Text
  | os cause => cause.message
  | notUtf8 => "stream did not contain valid UTF-8".toList
  | nulInPath => "file name contained an unexpected NUL byte".toList
  | described text => text

end StyleBundle
