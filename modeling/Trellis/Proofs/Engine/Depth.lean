import Trellis.Proofs.Engine.Reachable

/-!
# How deep code may be nested

An action is given up when its code is nested too deep. Allowing a greater depth changes nothing else: an action that
ends under some limit ends in the same way, on the same engine and with the same diagnostics, under every greater one.
-/
namespace Trellis.Action

open Tree (Handle)

variable {α β : Type}

/-- The second action ends as the first does, unless the first is given up. -/
def Deepens (x y : Action α) : Prop := ∀ e, x e = .tooDeep ∨ y e = x e

namespace Deepens

theorem refl (x : Action α) : Deepens x x := fun _ => .inr rfl

/-- What is left where the first action ends. -/
theorem engine? {x y : Action α} (hx : Deepens x y) {e e' : Engine} (h : (x e).engine? = some e') :
    (y e).engine? = some e' := by
  rcases hx e with hdeep | heq
  · rw [hdeep] at h
    cases h
  · rw [heq, h]

theorem bind {x y : Action α} {f g : α → Action β} (hx : Deepens x y) (hf : ∀ a, Deepens (f a) (g a)) :
    Deepens (x >>= f) (y >>= g) := by
  intro e
  cases hr : x e with
  | tooDeep => exact .inl (bind_of_tooDeep hr)
  | failed fault e' journal =>
    have hy : y e = .failed fault e' journal := by simpa [hr] using hx e
    exact .inr ((bind_of_failed hy).trans (bind_of_failed hr).symm)
  | done a e' journal =>
    have hy : y e = .done a e' journal := by simpa [hr] using hx e
    rw [bind_of_done hr, bind_of_done hy]
    rcases hf a e' with h | h
    · rw [h]
      exact .inl rfl
    · rw [h]
      exact .inr rfl

/-- More code after the same action. -/
theorem after {x : Action α} {f g : α → Action β} (hf : ∀ a, Deepens (f a) (g a)) :
    Deepens (x >>= f) (x >>= g) := (refl x).bind hf

theorem ite {c : Prop} [Decidable c] {x y x' y' : Action α} (hx : Deepens x x') (hy : Deepens y y') :
    Deepens (if c then x else y) (if c then x' else y') := by
  split
  · exact hx
  · exact hy

theorem bracket {x y : Action α} (hx : Deepens x y) (enter : Engine → Engine)
    (leave : Engine → Engine → Engine) : Deepens (bracket enter leave x) (bracket enter leave y) := by
  intro e
  unfold Action.bracket
  rcases hx (enter e) with h | h
  · rw [h]
    exact .inl rfl
  · rw [h]
    exact .inr rfl

theorem onFault {x y : Action α} (hx : Deepens x y) (f : Engine → Engine) :
    Deepens (onFault f x) (onFault f y) := by
  intro e
  unfold Action.onFault
  rcases hx e with h | h
  · rw [h]
    exact .inl rfl
  · rw [h]
    exact .inr rfl

theorem attempt {x y : Action α} (hx : Deepens x y) : Deepens (attempt x) (attempt y) := by
  intro e
  unfold Action.attempt
  rcases hx e with h | h
  · rw [h]
    exact .inl rfl
  · rw [h]
    exact .inr rfl

theorem withFocus {x y : Action Unit} (hx : Deepens x y) (node : Handle) :
    Deepens (withFocus node x) (withFocus node y) := hx.bracket _ _

theorem inFrame {x y : Action Unit} (hx : Deepens x y) (frame : Frame Handle) :
    Deepens (inFrame frame x) (inFrame frame y) := hx.bracket _ _

theorem container {x y : Action Unit} (hx : Deepens x y) (site : Nat) (enclosure : Enclosure) :
    Deepens (container site enclosure x) (container site enclosure y) := by
  refine after fun context => ite hx ?_
  refine after fun node => after fun name => after fun _ => after fun depth => after fun _ => ?_
  exact bind (((hx.withFocus node).inFrame _).onFault _) fun _ => refl _

theorem conditional {x y : Action Unit} (hx : Deepens x y) (site : Nat) :
    Deepens (conditional site x) (conditional site y) := by
  refine after fun v => after fun label => after fun _ => ite ?_ (refl _)
  exact after fun node => after fun context => hx.inFrame _

section

variable {run run' : List Instruction → Action Unit} (hrun : ∀ code, Deepens (run code) (run' code))
include hrun

theorem call (site : Nat) (label : String) (mode : Mode) :
    Deepens (call run site label mode) (call run' site label mode) := by
  refine after fun sections => after fun callee => after fun _ => after fun name => after fun _ => ?_
  cases callee.body with
  | none => exact refl _
  | some body => exact (hrun body).bracket _ _

theorem perform (site : Nat) (operation : Operation) :
    Deepens (perform run site operation) (perform run' site operation) := by
  cases operation with
  | call label mode => exact call hrun site label mode
  | _ => exact refl _

theorem step (i : Instruction) : Deepens (step run i) (step run' i) := by
  refine after fun site => ?_
  cases i with
  | container id enclosure body => exact (hrun body).container site enclosure
  | conditional id body => exact (hrun body).conditional site
  | single id operation => exact perform hrun site operation

end

/-- The instructions of a block all run under the limit of the block. -/
theorem sequence {one one' : Instruction → Action Unit} (hone : ∀ i, Deepens (one i) (one' i))
    (code : List Instruction) : Deepens (sequence one code) (sequence one' code) := by
  induction code with
  | nil => exact refl _
  | cons i code ih => exact bind (hone i) fun _ => ih

end Deepens

/-- The limit is passed on from block to block, one less each time, so that a greater one stays greater. -/
theorem execute_deepens {m n : Nat} (h : m ≤ n) (code : List Instruction) :
    Deepens (execute m code) (execute n code) := by
  induction m generalizing n code with
  | zero => exact fun _ => .inl rfl
  | succ m ih =>
    obtain ⟨k, rfl⟩ : ∃ k, n = k + 1 := ⟨n - 1, by omega⟩
    exact .sequence (.step (ih (by omega))) code

/-- A render that ends under some limit ends in the same way under a greater one. -/
theorem render_deepens {m n : Nat} (h : m ≤ n) : Deepens (render m) (render n) := by
  have hpass : Deepens (renderPass m) (renderPass n) := by
    refine .after fun mount => .after fun _ => .after fun _ => .after fun _ => .after fun _ => ?_
    exact .bind (.call (execute_deepens h) _ _ _) fun _ => .refl _
  exact .after fun started => .after fun _ => .bind hpass.attempt fun _ => .refl _

theorem invoke_deepens {m n : Nat} (h : m ≤ n) (site : Nat) (label : String) (mode : Mode) :
    Deepens (invoke m site label mode) (invoke n site label mode) := .call (execute_deepens h) site label mode

theorem boot_deepens {m n : Nat} (h : m ≤ n) (mount : Handle) : Deepens (boot m mount) (boot n mount) := by
  refine .after fun _ => .after fun _ => .after fun defined => ?_
  refine .ite (.bind (invoke_deepens h _ _ _).attempt ?_) (.after ?_)
  all_goals
    intro started
    cases started with
    | ok => exact render_deepens h
    | error fault => exact .refl _

theorem poll_deepens {m n : Nat} (h : m ≤ n) : Deepens (poll m) (poll n) := by
  refine .after fun now => .after fun _ => .after fun _ => .ite ?_ (.refl _)
  exact .after fun _ => .bind (render_deepens h) fun _ => .refl _

theorem dispatch_deepens {m n : Nat} (h : m ≤ n) (target : Handle) (event : String) :
    Deepens (dispatch m target event) (dispatch n target event) := by
  have hdeliver : ∀ ls, Deepens (deliver m target ls) (deliver n target ls) := by
    intro ls
    induction ls with
    | nil => exact .refl _
    | cons l ls ih =>
      refine .bind ((invoke_deepens h _ _ _).withFocus target).attempt fun ended => ?_
      cases ended with
      | ok => exact .bind ih fun _ => .refl _
      | error fault => exact .refl _
  exact .after fun _ => .after fun _ => hdeliver _

end Trellis.Action
