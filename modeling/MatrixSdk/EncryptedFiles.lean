import Mathlib.Algebra.GroupWithZero.Nat
import Mathlib.Data.List.Induction

/-!
The encrypted files of a search index: an initialisation vector, the encrypted bytes, and their
MAC, which does not cover the vector.
-/
namespace MatrixSdk.EncryptedFiles

open List

/-- A stream cipher and a MAC, with their keys. -/
structure Ciphers where
  keystream : List UInt8 → ℕ → UInt8
  mac : List UInt8 → List UInt8
  macSize : ℕ

def applyKeystream (keystream : ℕ → UInt8) (position : ℕ) (buf : List UInt8) : List UInt8 :=
  buf.mapIdx fun i byte => byte ^^^ keystream (position + i)

variable (ciphers : Ciphers) (iv : List UInt8)

namespace AesWriter

/-- What was encrypted before has gone into the MAC and tells the position in the keystream. -/
def encryptWrite (encrypted buf : List UInt8) : List UInt8 :=
  encrypted ++ applyKeystream (ciphers.keystream iv) encrypted.length buf

def encryptAll (bufs : List (List UInt8)) : List UInt8 :=
  bufs.foldl (encryptWrite ciphers iv) []

def finalize (encrypted : List UInt8) : List UInt8 :=
  iv ++ encrypted ++ ciphers.mac encrypted

end AesWriter

structure AesReader where
  iv : List UInt8
  encrypted : List UInt8
  position : ℕ

namespace AesReader

def new (ivSize : ℕ) (file : List UInt8) : Option AesReader :=
  let macStart := file.length - ciphers.macSize
  let encrypted := (file.take macStart).drop ivSize
  if file.length < ivSize + ciphers.macSize then none
  else if ciphers.mac encrypted ≠ file.drop macStart then none
  else some ⟨file.take ivSize, encrypted, 0⟩

def readDecrypt (size : ℕ) (reader : AesReader) : List UInt8 × AesReader :=
  let read := (reader.encrypted.drop reader.position).take size
  (applyKeystream (ciphers.keystream reader.iv) reader.position read,
    { reader with position := reader.position + size })

/-- What reads with buffers of these sizes return, one after the other. -/
def readAll (reader : AesReader) : List ℕ → List UInt8
  | [] => []
  | size :: sizes =>
    let (read, reader) := reader.readDecrypt ciphers size
    read ++ readAll reader sizes

end AesReader

theorem encryptAll_eq (bufs : List (List UInt8)) : AesWriter.encryptAll ciphers iv bufs =
    applyKeystream (ciphers.keystream iv) 0 bufs.flatten := by
  induction bufs using reverseRecOn with
  | nil => rfl
  | append_singleton bufs buf ih =>
    rw [AesWriter.encryptAll, foldl_append, ← AesWriter.encryptAll, ih]
    simp [AesWriter.encryptWrite, applyKeystream, mapIdx_append, Nat.add_comm]

/-- A part of what was encrypted is decrypted from its own position on. -/
theorem applyKeystream_take_drop (keystream : ℕ → UInt8) (plain : List UInt8)
    (position size : ℕ) :
    applyKeystream keystream position
        (((applyKeystream keystream 0 plain).drop position).take size) =
      (plain.drop position).take size := by
  refine ext_getElem (by simp [applyKeystream]) fun i _ _ => ?_
  simp only [applyKeystream, getElem_take, getElem_drop, getElem_mapIdx, Nat.zero_add]
  rw [UInt8.xor_assoc, UInt8.xor_self, UInt8.xor_zero]

theorem readAll_eq (plain : List UInt8) (sizes : List ℕ) (position : ℕ) :
    AesReader.readAll ciphers ⟨iv, applyKeystream (ciphers.keystream iv) 0 plain, position⟩ sizes =
      (plain.drop position).take sizes.sum := by
  induction sizes generalizing position with
  | nil => rfl
  | cons size sizes ih =>
    simp only [AesReader.readAll, AesReader.readDecrypt, ih, applyKeystream_take_drop]
    rw [sum_cons, take_add, drop_drop]

/-- The writes of a file and the initialisation vector that was drawn for it. -/
structure WrittenFile where
  iv : List UInt8
  bufs : List (List UInt8)

def WrittenFile.encrypted (written : WrittenFile) : List UInt8 :=
  AesWriter.encryptAll ciphers written.iv written.bufs

/-- The parts of a file that is opened. -/
theorem eq_of_new {ivSize : ℕ} {file : List UInt8} {reader : AesReader}
    (h : AesReader.new ciphers ivSize file = some reader) :
    file = reader.iv ++ reader.encrypted ++ ciphers.mac reader.encrypted ∧
      reader.iv = file.take ivSize ∧ reader.position = 0 := by
  unfold AesReader.new at h
  dsimp only at h
  split_ifs at h with hlength hmac
  cases h
  refine ⟨?_, rfl, rfl⟩
  have hiv : file.take ivSize = (file.take (file.length - ciphers.macSize)).take ivSize := by
    rw [take_take, Nat.min_eq_left (by omega)]
  dsimp only
  rw [not_not.mp hmac, hiv, take_append_drop, take_append_drop]

/-- Unless a MAC was forged, what follows the initialisation vector of a file that is opened is the
ciphertext and the MAC of a file that was written under the keys; behind the vector of that file
it is that file, and its plaintext is read. -/
theorem opened_file_was_written {ivSize : ℕ} {file : List UInt8} {written : List WrittenFile}
    {reader : AesReader}
    (hunforged : ∀ data, data ++ ciphers.mac data = file.drop ivSize →
      ∃ w ∈ written, data = w.encrypted ciphers)
    (hopen : AesReader.new ciphers ivSize file = some reader) :
    ∃ w ∈ written, file = file.take ivSize ++ w.encrypted ciphers ++
        ciphers.mac (w.encrypted ciphers) ∧
      (file.take ivSize = w.iv → file = AesWriter.finalize ciphers w.iv (w.encrypted ciphers) ∧
        ∀ sizes, reader.readAll ciphers sizes = w.bufs.flatten.take sizes.sum) := by
  obtain ⟨hfile, hiv, hposition⟩ := eq_of_new ciphers hopen
  have hrest : reader.encrypted ++ ciphers.mac reader.encrypted = file.drop ivSize := by
    rw [append_assoc, hiv] at hfile
    exact append_cancel_left (hfile.symm.trans (take_append_drop ivSize file).symm)
  obtain ⟨w, hw, hencrypted⟩ := hunforged _ hrest
  rw [hiv, hencrypted] at hfile
  refine ⟨w, hw, hfile, fun hvector => ⟨hvector ▸ hfile, fun sizes => ?_⟩⟩
  obtain ⟨readerIv, encrypted, position⟩ := reader
  obtain rfl : readerIv = w.iv := hiv.trans hvector
  obtain rfl : position = 0 := hposition
  obtain rfl : encrypted = w.encrypted ciphers := hencrypted
  rw [WrittenFile.encrypted, encryptAll_eq, readAll_eq, drop_zero]

def repeating : Ciphers := ⟨fun iv _ => iv.headD 0, fun data => [data.headD 0], 1⟩

theorem changed_mac_is_refused : AesReader.new repeating 1 [1, 2, 4, 7] = none := by
  refine Option.eq_none_iff_forall_ne_some.mpr fun reader hopen => ?_
  obtain ⟨w, hw, hfile, -⟩ := @opened_file_was_written repeating 1 [1, 2, 4, 7]
    [⟨[1], [[3, 5]]⟩, ⟨[6], [[1]]⟩] reader
    (fun _ h => ⟨_, mem_cons_self, dropLast_concat.symm.trans (congrArg dropLast h)⟩) hopen
  rcases hw with _ | ⟨_, _ | ⟨_, _ | _⟩⟩ <;> exact absurd hfile (by decide)

/-- Only the initialisation vector is changed, or what follows it is taken from another file. -/
theorem changed_iv_alters_plaintext :
    AesWriter.finalize repeating [1] (AesWriter.encryptAll repeating [1] [[3, 5]]) =
      [1, 2, 4, 2] ∧
    (AesReader.new repeating 1 [0, 2, 4, 2]).map (AesReader.readDecrypt repeating 9 · |>.1) =
      some [2, 4] ∧
    AesWriter.finalize repeating [6] (AesWriter.encryptAll repeating [6] [[1]]) = [6, 7, 7] ∧
    (AesReader.new repeating 1 [1, 7, 7]).map (AesReader.readDecrypt repeating 9 · |>.1) =
      some [6] := by
  decide

/-- A file is read back in pieces of any sizes, however it was written. -/
theorem encrypted_file_round_trips (hmac : ∀ data, (ciphers.mac data).length = ciphers.macSize)
    (bufs : List (List UInt8)) (sizes : List ℕ) :
    (AesReader.new ciphers iv.length (AesWriter.finalize ciphers iv
        (AesWriter.encryptAll ciphers iv bufs))).map (·.readAll ciphers sizes) =
      some (bufs.flatten.take sizes.sum) := by
  have hnew : ∀ encrypted, AesReader.new ciphers iv.length
      (AesWriter.finalize ciphers iv encrypted) = some ⟨iv, encrypted, 0⟩ := by
    intro encrypted
    unfold AesReader.new AesWriter.finalize
    dsimp only
    rw [length_append, hmac, Nat.add_sub_cancel, take_left, drop_left, drop_left]
    simp
  rw [hnew, encryptAll_eq, Option.map_some, readAll_eq, drop_zero]

theorem two_bytes_round_trip :
    (AesReader.new repeating 1 [1, 2, 4, 2]).map (·.readAll repeating [1, 5]) = some [3, 5] :=
  encrypted_file_round_trips repeating [1] (fun _ => rfl) [[3, 5]] [1, 5]

end MatrixSdk.EncryptedFiles
