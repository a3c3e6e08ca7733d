import SisProg.Lib.FileSystem

/-!
# Reading and writing at an offset

A file that has been opened is read and written at an offset, which moves with every call.
What is written behind the end of the file leaves zeros in between.

* `overwrite_overwrite`: two writes one after the other are one write.
* `overwrite_length`: to write at the end is to append.
-/

namespace SisProg

/-- `content` after a write of `buf` at `offset`. -/
def overwrite (content : Bytes) (offset : Nat) (buf : Bytes) : Bytes :=
  if buf = [] then content
  else
    content.takeD offset 0 ++ buf ++ content.drop (offset + buf.length)

@[simp] theorem overwrite_nil (content : Bytes) (offset : Nat) :
    overwrite content offset [] = content := if_pos rfl

/-- At the end of the file. -/
@[simp] theorem overwrite_length (content buf : Bytes) :
    overwrite content content.length buf = content ++ buf := by
  unfold overwrite
  split
  next h => rw [h, List.append_nil]
  next =>
    rw [List.takeD_eq_take _ le_rfl, List.take_length, List.drop_of_length_le (by simp),
      List.append_nil]

theorem overwrite_overwrite (content : Bytes) (offset : Nat) (a b : Bytes) :
    overwrite (overwrite content offset a) (offset + a.length) b =
      overwrite content offset (a ++ b) := by
  by_cases ha : a = []
  · simp [ha]
  by_cases hb : b = []
  · simp [hb]
  have hlen : (content.takeD offset 0 ++ a).length = offset + a.length := by simp
  unfold overwrite
  rw [if_neg ha, if_neg hb, if_neg (by simp [ha]), ← hlen, List.takeD_left,
    List.drop_append, List.drop_drop, List.length_append, List.drop_of_length_le (by simp)]
  simp [Nat.add_assoc]

namespace FileSystem

/-- `write` to the file `ino`. A write of no bytes changes nothing. -/
def writeAt (fs : FileSystem) (ino offset : Nat) (buf : Bytes) (now : Nat) : FileSystem :=
  fs.update ino fun f => { f with
    content := overwrite f.content offset buf
    mtime := if buf = [] then f.mtime else now }

variable {fs : FileSystem} {ino i offset now : Nat} {a b : Bytes} {f g : File → File}

theorem update_update : (fs.update ino f).update ino g = fs.update ino (g ∘ f) := by
  unfold update
  congr 1
  funext i
  dsimp only
  split
  next => rfl
  next => rfl

@[simp] theorem writeAt_nil : fs.writeAt ino offset [] now = fs := by
  unfold writeAt update
  simp

@[simp] theorem lookup_writeAt (q : Bytes) :
    (fs.writeAt ino offset a now).lookup q = fs.lookup q := rfl

@[simp] theorem content_writeAt :
    ((fs.writeAt ino offset a now).file ino).content = overwrite (fs.file ino).content offset a :=
  congrArg File.content file_update_self

theorem file_writeAt_of_ne (h : i ≠ ino) :
    (fs.writeAt ino offset a now).file i = fs.file i := file_update_of_ne h

theorem writeAt_writeAt :
    (fs.writeAt ino offset a now).writeAt ino (offset + a.length) b now =
      fs.writeAt ino offset (a ++ b) now := by
  unfold writeAt
  rw [update_update]
  congr 1
  funext f
  by_cases ha : a = [] <;> by_cases hb : b = [] <;> simp [overwrite_overwrite, ha, hb]

end FileSystem

end SisProg
