import Fsdiff.Types

/-! Output paths. After an error a file is removed only if it was a regular file, or missing,
before it was opened: device nodes and pipes stay. -/
namespace Fsdiff.Io

/-- What a path names; `other` is also a path whose `stat` fails with another code than
`ENOENT`. -/
inductive FileKind where
  | missing | regular | other
  deriving DecidableEq, Repr

/-- A path and what can be read there; of a special file, what was written to it. -/
structure Path where
  kind : FileKind
  contents : Bytes
  deriving DecidableEq, Repr

/-- `fsd_path_is_regular_or_missing` -/
def pathIsRegularOrMissing (p : Path) : Bool := p.kind ≠ .other

namespace Path

/-- After `fopen(path, "wb")`: a file that was missing is created. -/
def opened (p : Path) (contents : Bytes) : Path :=
  ⟨if p.kind = .missing then .regular else p.kind, contents⟩

/-- `if (may_unlink) fsd_unlink(path)`, which succeeds; `p` is the path before it was opened. -/
def removed (p : Path) (contents : Bytes) : Path :=
  if pathIsRegularOrMissing p then ⟨.missing, []⟩ else p.opened contents

variable {p : Path} {contents : Bytes}

@[simp] theorem opened_contents : (p.opened contents).contents = contents := rfl

theorem opened_kind_ne_missing : (p.opened contents).kind ≠ .missing := by
  unfold opened
  dsimp only
  split_ifs with h
  · simp
  · exact h

theorem opened_kind_other (h : p.kind = .other) : (p.opened contents).kind = .other := by
  simp [opened, h]

theorem removed_kind_missing (h : p.kind ≠ .other) : (p.removed contents).kind = .missing := by
  simp [removed, pathIsRegularOrMissing, h]

theorem removed_kind_other (h : p.kind = .other) : (p.removed contents).kind = .other := by
  simp [removed, pathIsRegularOrMissing, h, opened]

end Path

end Fsdiff.Io
