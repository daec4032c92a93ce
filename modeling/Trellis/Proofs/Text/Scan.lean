/-!
# Scanning runs of characters

A scanner takes what satisfies a predicate and stops at the first character that does not.
-/
namespace Trellis

variable {α : Type} {p : α → Bool} {run rest : List α}

/-- A scan that stops at once, or at the end. -/
def Stops (p : α → Bool) (rest : List α) : Prop := ∀ c ∈ rest.head?, p c = false

@[simp] theorem stops_nil : Stops p [] := by simp [Stops]

@[simp] theorem stops_cons {c : α} : Stops p (c :: rest) ↔ p c = false := by simp [Stops]

theorem Stops.takeWhile (h : Stops p rest) : rest.takeWhile p = [] := by
  cases rest with
  | nil => rfl
  | cons c rest => simp [stops_cons.mp h]

theorem Stops.dropWhile (h : Stops p rest) : rest.dropWhile p = rest := by
  cases rest with
  | nil => rfl
  | cons c rest => simp [stops_cons.mp h]

/-- A scan takes a run that is followed by something else, -/
theorem takeWhile_run (hrun : ∀ c ∈ run, p c = true) (hrest : Stops p rest) :
    (run ++ rest).takeWhile p = run := by
  rw [List.takeWhile_append_of_pos hrun, hrest.takeWhile, List.append_nil]

/-- and leaves what follows it. -/
theorem dropWhile_run (hrun : ∀ c ∈ run, p c = true) (hrest : Stops p rest) :
    (run ++ rest).dropWhile p = rest := by
  rw [List.dropWhile_append_of_pos hrun, hrest.dropWhile]

theorem stops_dropWhile (cs : List α) : Stops p (cs.dropWhile p) := by
  induction cs with
  | nil => exact stops_nil
  | cons c cs ih =>
    by_cases hc : p c = true
    · rwa [List.dropWhile_cons_of_pos hc]
    · rw [List.dropWhile_cons_of_neg hc, stops_cons]
      simpa using hc

/-- What a scan has taken, it takes again before anything else at which it stops. -/
theorem rescan (cs : List α) (hrest : Stops p rest) :
    (cs.takeWhile p ++ rest).takeWhile p = cs.takeWhile p ∧ (cs.takeWhile p ++ rest).dropWhile p = rest := by
  have hrun : ∀ c ∈ cs.takeWhile p, p c = true := List.all_eq_true.1 List.all_takeWhile
  exact ⟨takeWhile_run hrun hrest, dropWhile_run hrun hrest⟩

/-- What comes first decides whether a scan stops at once. -/
theorem Stops.of_head {rest' : List α} (h : Stops p rest) (hhead : rest'.head? = rest.head?) : Stops p rest' := by
  rwa [Stops, hhead]

theorem head?_append_piece {piece : List α} (h : piece ≠ []) (rest rest' : List α) :
    (piece ++ rest).head? = (piece ++ rest').head? := by
  obtain ⟨c, piece, rfl⟩ := List.exists_cons_of_ne_nil h
  rfl

/-- A scan stops before a piece whatever follows the piece. -/
theorem rescan_piece {cs piece left : List α} (hne : piece ≠ []) (hpiece : cs.dropWhile p = piece ++ left)
    (rest : List α) :
    (cs.takeWhile p ++ (piece ++ rest)).takeWhile p = cs.takeWhile p ∧
      (cs.takeWhile p ++ (piece ++ rest)).dropWhile p = piece ++ rest := by
  apply rescan
  have hstops : Stops p (cs.dropWhile p) := stops_dropWhile cs
  rw [hpiece] at hstops
  exact hstops.of_head (head?_append_piece hne rest left)

end Trellis
