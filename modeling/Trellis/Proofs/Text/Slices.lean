import Mathlib.Data.List.TakeWhile
import Trellis.Proofs.Text.Scan

/-!
# Slices of a text

Positions in a text are counted in bytes. A text can be cut at a position that is not beyond its end and not inside a
character; at any other position there is no slice of it. A search gives the position at which something begins, so
that the text can be cut there, and behind what was found if its own bytes are added.
-/
namespace Trellis

/-- The position is not beyond the end of the text and not inside one of its characters. -/
abbrev IsBoundary (s : String) (pos : Nat) : Prop := String.Pos.Raw.IsValid s ⟨pos⟩

/-- The text from a position on, if it can be cut there. -/
def sliceFrom? (s : String) (pos : Nat) : Option String :=
  if h : IsBoundary s pos then some (s.sliceFrom (s.pos ⟨pos⟩ h)).copy else none

/-- The text up to a position, if it can be cut there. -/
def sliceTo? (s : String) (pos : Nat) : Option String :=
  if h : IsBoundary s pos then some (s.sliceTo (s.pos ⟨pos⟩ h)).copy else none

theorem isBoundary_iff {s : String} {pos : Nat} : IsBoundary s pos ↔ ∃ u v, s = u ++ v ∧ pos = u.utf8ByteSize := by
  simp only [IsBoundary, String.Pos.Raw.isValid_iff_exists_append, String.Pos.Raw.ext_iff, String.byteIdx_rawEndPos]

theorem splits_append (u v : String) (h : IsBoundary (u ++ v) u.utf8ByteSize) :
    ((u ++ v).pos ⟨u.utf8ByteSize⟩ h).Splits u v where
  eq_append := rfl
  offset_eq_rawEndPos := rfl

theorem sliceFrom?_append (u v : String) : sliceFrom? (u ++ v) u.utf8ByteSize = some v := by
  have h : IsBoundary (u ++ v) u.utf8ByteSize := isBoundary_iff.2 ⟨u, v, rfl, rfl⟩
  rw [sliceFrom?, dif_pos h, (splits_append u v h).copy_sliceFrom_eq]

theorem sliceTo?_append (u v : String) : sliceTo? (u ++ v) u.utf8ByteSize = some u := by
  have h : IsBoundary (u ++ v) u.utf8ByteSize := isBoundary_iff.2 ⟨u, v, rfl, rfl⟩
  rw [sliceTo?, dif_pos h, (splits_append u v h).copy_sliceTo_eq]

theorem sliceFrom?_eq_some_iff {s v : String} {pos : Nat} :
    sliceFrom? s pos = some v ↔ ∃ u, s = u ++ v ∧ pos = u.utf8ByteSize := by
  constructor
  · intro h
    by_cases hpos : IsBoundary s pos
    · obtain ⟨u, v', rfl, rfl⟩ := isBoundary_iff.1 hpos
      rw [sliceFrom?_append] at h
      exact ⟨u, by rw [Option.some.inj h], rfl⟩
    · rw [sliceFrom?, dif_neg hpos] at h
      cases h
  · rintro ⟨u, rfl, rfl⟩
    exact sliceFrom?_append u v

example : sliceFrom? "aéb" 1 = some "éb" ∧ sliceFrom? "aéb" 2 = none ∧ sliceFrom? "aéb" 5 = none := by decide +kernel

/-! ### Characters and their bytes -/

def bytes (cs : List Char) : Nat := (String.ofList cs).utf8ByteSize

@[simp] theorem bytes_toList (s : String) : bytes s.toList = s.utf8ByteSize := by rw [bytes, String.ofList_toList]

@[simp] theorem bytes_nil : bytes [] = 0 := rfl

@[simp] theorem bytes_append (cs ds : List Char) : bytes (cs ++ ds) = bytes cs + bytes ds := by
  rw [bytes, String.ofList_append, String.utf8ByteSize_append]
  rfl

@[simp] theorem bytes_cons (c : Char) (cs : List Char) : bytes (c :: cs) = c.utf8Size + bytes cs := by
  have hone : bytes [c] = c.utf8Size := by
    rw [bytes, ← String.singleton_eq_ofList, String.utf8ByteSize_singleton]
  rw [← hone, ← bytes_append, List.singleton_append]

theorem length_le_bytes (cs : List Char) : cs.length ≤ bytes cs := by
  induction cs with
  | nil => exact Nat.le_refl 0
  | cons c cs ih =>
    have := c.utf8Size_pos
    rw [bytes_cons, List.length_cons]
    omega

theorem sliceFrom?_ofList (piece rest : List Char) :
    sliceFrom? (String.ofList (piece ++ rest)) (bytes piece) = some (String.ofList rest) := by
  rw [String.ofList_append]
  exact sliceFrom?_append _ _

theorem sliceTo?_ofList (piece rest : List Char) :
    sliceTo? (String.ofList (piece ++ rest)) (bytes piece) = some (String.ofList piece) := by
  rw [String.ofList_append]
  exact sliceTo?_append _ _

/-- A text can be cut where a scan of it stops. -/
theorem sliceTo?_takeWhile (p : Char → Bool) (cs : List Char) :
    sliceTo? (String.ofList cs) (bytes (cs.takeWhile p)) = some (String.ofList (cs.takeWhile p)) := by
  have h := sliceTo?_ofList (cs.takeWhile p) (cs.dropWhile p)
  rwa [List.takeWhile_append_dropWhile] at h

theorem sliceFrom?_takeWhile (p : Char → Bool) (cs : List Char) :
    sliceFrom? (String.ofList cs) (bytes (cs.takeWhile p)) = some (String.ofList (cs.dropWhile p)) := by
  have h := sliceFrom?_ofList (cs.takeWhile p) (cs.dropWhile p)
  rwa [List.takeWhile_append_dropWhile] at h

/-! ### Searches -/

/-- Characters with the positions at which they begin, the first of them at `start`. -/
def indexed (start : Nat) : List Char → List (Nat × Char)
  | [] => []
  | c :: cs => (start, c) :: indexed (start + c.utf8Size) cs

/-- The position of the first of these characters that satisfies a predicate. -/
def firstIndex? (p : Char → Bool) (indices : List (Nat × Char)) : Option Nat := (indices.find? fun i => p i.2).map (·.1)

/-- The position at which a pattern first begins. -/
def findText? (pattern : List Char) : List Char → Option Nat
  | [] => if pattern.isEmpty then some 0 else none
  | c :: cs =>
    if pattern.isPrefixOf (c :: cs) then some 0 else (findText? pattern cs).map (c.utf8Size + ·)

theorem firstIndex?_indexed (p : Char → Bool) (start : Nat) (cs : List Char) :
    firstIndex? p (indexed start cs) =
      if cs.any p then some (start + bytes (cs.takeWhile fun c => !p c)) else none := by
  induction cs generalizing start with
  | nil => rfl
  | cons c cs ih =>
    have ih := ih (start + c.utf8Size)
    unfold firstIndex? at ih ⊢
    by_cases hc : p c = true
    · simp [indexed, hc]
    · simp [indexed, hc, ih, Nat.add_assoc]

theorem firstIndex?_missing {stop : Char} {cs : List Char} (h : cs.dropWhile (· ≠ stop) = []) :
    firstIndex? (· = stop) (indexed 0 cs) = none := by
  have hmissing : stop ∉ cs := by
    intro hmem
    simpa using List.dropWhile_eq_nil_iff.1 h stop hmem
  simp [firstIndex?_indexed, hmissing]

/-- A character that is found stands between what the search has passed and what follows. -/
theorem firstIndex?_found {stop c : Char} {cs rest : List Char} (h : cs.dropWhile (· ≠ stop) = c :: rest) :
    c = stop ∧ cs = cs.takeWhile (· ≠ stop) ++ stop :: rest ∧
      firstIndex? (· = stop) (indexed 0 cs) = some (bytes (cs.takeWhile (· ≠ stop))) := by
  have hstop : c = stop := by
    have hstops : Stops (fun c => decide (c ≠ stop)) (cs.dropWhile (· ≠ stop)) := stops_dropWhile cs
    rw [h, stops_cons] at hstops
    simpa using hstops
  have hcs : cs = cs.takeWhile (· ≠ stop) ++ stop :: rest := by
    rw [← hstop, ← h, hstop, List.takeWhile_append_dropWhile]
  refine ⟨hstop, hcs, ?_⟩
  have hany : cs.any (· = stop) = true := by
    rw [hcs]
    simp
  simp [firstIndex?_indexed, hany]

/-- Without such a character the search goes on to the end. -/
theorem getD_firstIndex? (p : Char → Bool) (start : Nat) (cs : List Char) :
    (firstIndex? p (indexed start cs)).getD (start + bytes cs) = start + bytes (cs.takeWhile fun c => !p c) := by
  rw [firstIndex?_indexed]
  split
  · rfl
  · next hany =>
    have hall : ∀ c ∈ cs, (!p c) = true := by simpa using hany
    rw [Option.getD_none, List.takeWhile_eq_self_iff.2 hall]

end Trellis
