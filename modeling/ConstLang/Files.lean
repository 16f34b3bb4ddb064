/-
Files, as a command uses them: whole ones are read, and written in place of what was there. A
command has access to files and does not ask what is behind it, the files of the system or a
`FileSystem`: files of which all that can be seen is a state. What a file system refuses changes
nothing, and what is written to it is read again.
-/

namespace ConstLang

/-- Reading and writing whole files by their paths. A refusal is given with its reason, in words. -/
structure FileAccess (m : Type → Type) where
  read (path : String) : m (Except String ByteArray)
  write (path : String) (bytes : ByteArray) : m (Except String Unit)

/-- Files with a state, which only a write that succeeds changes. -/
structure FileSystem (σ : Type) where
  read (s : σ) (path : String) : Except String ByteArray
  write (s : σ) (path : String) (bytes : ByteArray) : Except String σ
  read_of_write {s s' : σ} {path : String} {bytes : ByteArray} :
    write s path bytes = .ok s' → read s' path = .ok bytes

namespace FileSystem

variable {σ : Type} (files : FileSystem σ)

/-- Access to the files of a state. -/
def access : FileAccess (StateM σ) where
  read path := do return files.read (← get) path
  write path bytes := do
    match files.write (← get) path bytes with
    | .ok s =>
      set s
      return .ok ()
    | .error reason => return .error reason

@[simp] theorem run_read (path : String) (s : σ) :
    (files.access.read path).run s = pure (files.read s path, s) := rfl

variable {files} {s s' : σ} {path reason : String} {bytes : ByteArray}

theorem run_write_of_ok (h : files.write s path bytes = .ok s') :
    (files.access.write path bytes).run s = pure (.ok (), s') := by
  simp [access, h]

theorem run_write_of_error (h : files.write s path bytes = .error reason) :
    (files.access.write path bytes).run s = pure (.error reason, s) := by
  simp [access, h]

end FileSystem

end ConstLang
