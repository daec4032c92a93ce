import Trellis.Proofs.Engine.Discipline
import Trellis.Proofs.Engine.Trace

/-!
# Sites keep their numbers

Each instruction begins by resolving its key, and a host may register keys as well. A use is a key that has been
resolved, with the number it was given. However often and in whatever order keys are resolved, the uses determine the
registry: the keys stand in the order of their first use, a number belongs to one key only, and both ways of looking
up agree with every use that has been made. Nothing else changes the registry of an engine. To say so for whole runs,
`uses` follows running code and lists the keys that it resolves, and `Request.uses` does so for what a host asks. The
registry after a request is the one that has answered exactly these.
-/
namespace Trellis

open Tree (Handle)

namespace Registry

/-- A key that has been resolved, and the number it was given. -/
abbrev Use := Key × Nat

/-- Resolves keys one after the other, whatever it is that resolves them. -/
def useAll {σ : Type} (resolve : σ → Key → Nat × σ) (s : σ) : List Key → List Use × σ
  | [] => ([], s)
  | key :: keys =>
    let (us, s') := useAll resolve (resolve s key).2 keys
    ((key, (resolve s key).1) :: us, s')

def resolveAll (r : Registry) (keys : List Key) : List Use × Registry := useAll resolve r keys

/-- The registry gives these numbers to these keys, one after the other, and is then another one. -/
def Answers (r : Registry) (us : List Use) (r' : Registry) : Prop := r.resolveAll (us.map Prod.fst) = (us, r')

/-- The registry agrees with the uses that have been made of it. -/
structure Agrees (r : Registry) (us : List Use) : Prop where
  same_iff : ∀ u ∈ us, ∀ v ∈ us, u.2 = v.2 ↔ u.1 = v.1
  /-- A number and a symbol are different sites, also if they read the same. -/
  kinds : ∀ n s site site', (.number n, site) ∈ us → (.symbol s, site') ∈ us → site ≠ site'
  /-- In the order of their first use the keys have the numbers 0, 1, 2 and so on. -/
  ordered : ∀ key site, (key, site) ∈ us ↔ (us.map Prod.fst).eraseDups[site]? = some key
  key?_iff : ∀ key site, r.key? site = some key ↔ (key, site) ∈ us
  /-- To look a key up is not to use it. -/
  find?_iff : ∀ key site, r.find? key = some site ↔ (key, site) ∈ us
  fits : (us.map Prod.fst).eraseDups.length ≤ UInt32.size → ∀ u ∈ us, u.2 < UInt32.size

/-! ### One use -/

variable {r r' r'' : Registry} {us us' : List Use}

/-- What has a number keeps it. -/
theorem key?_of_resolve {key : Key} {site : Nat} {other : Key} (h : r.key? site = some other) :
    (r.resolve key).2.key? site = some other := by
  obtain ⟨more, hmore⟩ := r.resolve_keys key
  have hlt : site < r.keys.length := (List.getElem?_eq_some_iff.1 h).1
  rw [key?, hmore, List.getElem?_append_left hlt]
  exact h

/-- The keys are those that have been used, in the order of their first use, and each has the number it was given. -/
structure Records (r : Registry) (us : List Use) : Prop where
  keys : r.keys = (us.map Prod.fst).eraseDups
  nodup : r.keys.Nodup
  sites : ∀ u ∈ us, r.key? u.2 = some u.1

theorem records_empty : empty.Records [] where
  keys := rfl
  nodup := .nil
  sites _ h := by cases h

namespace Records

theorem mem_keys (h : r.Records us) {key : Key} : key ∈ r.keys ↔ key ∈ us.map Prod.fst := by
  rw [h.keys, List.mem_eraseDups]

/-- The keys after one more use. A key that is known is in place already. -/
theorem resolve (h : r.Records us) (key : Key) :
    (r.resolve key).2.Records (us ++ [(key, (r.resolve key).1)]) := by
  have happend : ((us ++ [(key, (r.resolve key).1)]).map Prod.fst).eraseDups =
      r.keys ++ if key ∈ r.keys then [] else [key] := by
    rw [List.map_append, List.eraseDups_append, ← h.keys]
    by_cases hk : key ∈ r.keys
    · simp [List.removeAll, hk, h.mem_keys.1 hk]
    · simp [List.removeAll, hk, mt h.mem_keys.2 hk, List.eraseDups_cons]
  have hkeys : (r.resolve key).2.keys = r.keys ++ if key ∈ r.keys then [] else [key] := by
    unfold Registry.resolve
    cases hf : r.find? key with
    | none => rw [if_neg (List.idxOf?_eq_none_iff.1 hf)]
    | some site =>
      obtain ⟨hlt, hget, -⟩ := List.idxOf?_eq_some_iff.1 hf
      rw [if_pos (hget ▸ List.getElem_mem hlt), List.append_nil]
  refine ⟨hkeys.trans happend.symm, ?_, fun u hu => ?_⟩
  · rw [hkeys]
    split
    · simpa using h.nodup
    · next hnew =>
      refine List.nodup_append.2 ⟨h.nodup, by simp, fun other hother new hone hsame => hnew ?_⟩
      rwa [← List.mem_singleton.1 hone, ← hsame]
  · rcases List.mem_append.1 hu with hu | hu
    · exact key?_of_resolve (h.sites u hu)
    · rw [List.mem_singleton.1 hu]
      exact r.key?_resolve key

theorem key?_iff (h : r.Records us) (key : Key) (site : Nat) : r.key? site = some key ↔ (key, site) ∈ us := by
  refine ⟨fun hk => ?_, fun hu => h.sites _ hu⟩
  obtain ⟨⟨_, site'⟩, hu, rfl⟩ := List.mem_map.1 (h.mem_keys.1 (List.mem_of_getElem? hk))
  have hlt : site < r.keys.length := (List.getElem?_eq_some_iff.1 hk).1
  obtain rfl : site = site' := (List.getElem?_inj hlt h.nodup).1 (hk.trans (h.sites _ hu).symm)
  exact hu

/-- Looking a key up and looking its number up are inverse to each other. -/
theorem find?_eq_some_iff (h : r.Records us) (key : Key) (site : Nat) :
    r.find? key = some site ↔ r.key? site = some key := by
  rw [find?, key?, List.idxOf?_eq_some_iff, List.getElem?_eq_some_iff]
  constructor
  · rintro ⟨hlt, hget, -⟩
    exact ⟨hlt, hget⟩
  · rintro ⟨hlt, hget⟩
    refine ⟨hlt, hget, fun j hj hsame => ?_⟩
    have hlt' : j < r.keys.length := Nat.lt_trans hj hlt
    refine Nat.ne_of_lt hj ((List.getElem?_inj hlt' h.nodup).1 ?_)
    rw [List.getElem?_eq_getElem hlt', List.getElem?_eq_getElem hlt, hsame, hget]

theorem same_iff (h : r.Records us) {u v : Use} (hu : u ∈ us) (hv : v ∈ us) : u.2 = v.2 ↔ u.1 = v.1 := by
  have hu' := h.sites u hu
  have hv' := h.sites v hv
  refine ⟨fun hsite => ?_, fun hkey => ?_⟩
  · rw [hsite, hv'] at hu'
    exact (Option.some.inj hu').symm
  · have hfind := (h.find?_eq_some_iff _ _).2 hu'
    rw [hkey, (h.find?_eq_some_iff _ _).2 hv'] at hfind
    exact (Option.some.inj hfind).symm

theorem agrees (h : r.Records us) : r.Agrees us where
  same_iff _ hu _ hv := h.same_iff hu hv
  kinds _ _ _ _ hn hs hsite := by cases (h.same_iff hn hs).1 hsite
  ordered key site := by rw [← h.keys, ← h.key?_iff key site, key?]
  key?_iff := h.key?_iff
  find?_iff key site := (h.find?_eq_some_iff key site).trans (h.key?_iff key site)
  fits hfew u hu := by
    have hlt : u.2 < r.keys.length := (List.getElem?_eq_some_iff.1 (h.sites u hu)).1
    rw [h.keys] at hlt
    exact Nat.lt_of_lt_of_le hlt hfew

end Records

/-! ### Uses one after the other -/

theorem map_fst_resolveAll (r : Registry) (keys : List Key) : (r.resolveAll keys).1.map Prod.fst = keys := by
  induction keys generalizing r with
  | nil => rfl
  | cons key keys ih => exact congrArg (List.cons key) (ih _)

theorem answers_resolveAll (r : Registry) (keys : List Key) :
    r.Answers (r.resolveAll keys).1 (r.resolveAll keys).2 := by
  rw [Answers, map_fst_resolveAll]

namespace Answers

theorem nil (r : Registry) : r.Answers [] r := rfl

theorem cons_iff {key : Key} {site : Nat} :
    r.Answers ((key, site) :: us) r' ↔ site = (r.resolve key).1 ∧ (r.resolve key).2.Answers us r' := by
  simp only [Answers, List.map_cons, resolveAll, useAll, Prod.ext_iff, List.cons.injEq, true_and, and_assoc, eq_comm]

theorem cons {key : Key} (h : (r.resolve key).2.Answers us r') : r.Answers ((key, (r.resolve key).1) :: us) r' :=
  cons_iff.2 ⟨rfl, h⟩

theorem trans (h : r.Answers us r') (h' : r'.Answers us' r'') : r.Answers (us ++ us') r'' := by
  induction us generalizing r with
  | nil =>
    obtain rfl : r = r' := congrArg Prod.snd h
    exact h'
  | cons u us ih =>
    obtain ⟨hsite, hrest⟩ := cons_iff.1 h
    exact cons_iff.2 ⟨hsite, ih hrest⟩

/-- What is recorded stays, and what is used is recorded. -/
theorem records (h : r.Answers us' r') (hr : r.Records us) : r'.Records (us ++ us') := by
  induction us' generalizing r us with
  | nil =>
    obtain rfl : r = r' := congrArg Prod.snd h
    rwa [List.append_nil]
  | cons u us' ih =>
    obtain ⟨hsite, hrest⟩ := cons_iff.1 h
    have hone := hr.resolve u.1
    rw [← hsite] at hone
    have hall := ih hrest hone
    rwa [List.append_assoc] at hall

end Answers

/-! ### Two tables -/

/-- A registry that keeps both ways of looking up apart: the number of each key, and the keys in the order of their
numbers. -/
structure Tables where
  index : Table Key Nat
  keys : List Key

namespace Tables

def empty : Tables := ⟨.empty, []⟩

/-- A new key is written to both tables. -/
def resolve (t : Tables) (key : Key) : Nat × Tables :=
  match t.index.get? key with
  | some site => (site, t)
  | none => (t.keys.length, ⟨t.index.insert key t.keys.length, t.keys ++ [key]⟩)

/-- The two tables are inverse to each other, and both are those of the registry. -/
structure Mirrors (t : Tables) (r : Registry) : Prop where
  inverse : ∀ key site, t.index.get? key = some site ↔ t.keys[site]? = some key
  find? : ∀ key, t.index.get? key = r.find? key
  key? : ∀ site, t.keys[site]? = r.key? site

variable {t : Tables}

/-- A key that has no number is in neither table, so that a new one can be written to both. -/
theorem inverse_insert (h : ∀ key site, t.index.get? key = some site ↔ t.keys[site]? = some key) {new : Key}
    (hnew : t.index.get? new = none) (key : Key) (site : Nat) :
    (t.index.insert new t.keys.length).get? key = some site ↔ (t.keys ++ [new])[site]? = some key := by
  have hout : ∀ i : Nat, t.keys[i]? ≠ some new := by
    intro i hi
    rw [← h, hnew] at hi
    cases hi
  rw [List.getElem?_append]
  by_cases hk : key = new
  · subst hk
    rw [Table.get?_insert_self, Option.some.injEq]
    split
    · next hlt => exact ⟨fun he => absurd he (Nat.ne_of_gt hlt), fun hi => absurd hi (hout site)⟩
    · next hge =>
      rw [List.getElem?_singleton]
      split <;> simp <;> omega
  · rw [Table.get?_insert_of_ne _ _ hk, h]
    split
    · rfl
    · next hge =>
      rw [List.getElem?_eq_none (Nat.le_of_not_lt hge), List.getElem?_singleton]
      split <;> simp [Ne.symm hk]

/-- Two tables that are inverse to each other are those of the registry with these keys. -/
theorem mirrors_of_inverse (h : ∀ key site, t.index.get? key = some site ↔ t.keys[site]? = some key)
    (hkeys : t.keys = r.keys) : t.Mirrors r := by
  refine ⟨h, fun key => ?_, fun site => by rw [hkeys]; rfl⟩
  ext site
  rw [h, Registry.find?, List.idxOf?_eq_some_iff, hkeys, List.getElem?_eq_some_iff]
  constructor
  · rintro ⟨hlt, hget⟩
    refine ⟨hlt, hget, fun j hj hsame => ?_⟩
    have hj' : t.keys[j]? = some key := by
      rw [hkeys, List.getElem?_eq_getElem (Nat.lt_trans hj hlt), hsame]
    have hsite : t.keys[site]? = some key := by rw [hkeys, List.getElem?_eq_getElem hlt, hget]
    have hone := ((h key j).2 hj').symm.trans ((h key site).2 hsite)
    exact Nat.ne_of_lt hj (Option.some.inj hone)
  · rintro ⟨hlt, hget, -⟩
    exact ⟨hlt, hget⟩

theorem mirrors_empty : empty.Mirrors .empty := ⟨by simp [empty], fun _ => rfl, fun _ => rfl⟩

namespace Mirrors

theorem keys_eq (h : t.Mirrors r) : t.keys = r.keys := List.ext_getElem? h.key?

/-- A use is answered alike, and the tables stay inverse to each other. -/
theorem resolve (h : t.Mirrors r) (key : Key) :
    (t.resolve key).1 = (r.resolve key).1 ∧ (t.resolve key).2.Mirrors (r.resolve key).2 := by
  rw [Tables.resolve, Registry.resolve, ← h.find?]
  cases hk : t.index.get? key with
  | some site => exact ⟨rfl, h⟩
  | none =>
    refine ⟨congrArg List.length h.keys_eq, mirrors_of_inverse (inverse_insert h.inverse hk) ?_⟩
    exact congrArg (· ++ [key]) h.keys_eq

theorem useAll (h : t.Mirrors r) (keys : List Key) :
    (Registry.useAll Tables.resolve t keys).1 = (r.resolveAll keys).1 ∧
      (Registry.useAll Tables.resolve t keys).2.Mirrors (r.resolveAll keys).2 := by
  induction keys generalizing t r with
  | nil => exact ⟨rfl, h⟩
  | cons key keys ih =>
    obtain ⟨hsite, hone⟩ := h.resolve key
    obtain ⟨hrest, hall⟩ := ih hone
    refine ⟨?_, hall⟩
    change (key, _) :: _ = (key, _) :: _
    rw [hsite, hrest]
    rfl

/-- Tables that are used as a registry has been used are the registry's. -/
theorem of_answers {us : List Use} (h : t.Mirrors r) (ha : r.Answers us r') :
    ∃ t', Registry.useAll Tables.resolve t (us.map Prod.fst) = (us, t') ∧ t'.Mirrors r' := by
  obtain ⟨hsites, hall⟩ := h.useAll (us.map Prod.fst)
  rw [show r.resolveAll _ = _ from ha] at hsites hall
  exact ⟨_, Prod.ext hsites rfl, hall⟩

end Mirrors
end Tables
end Registry

open Registry (Use)

/-! ### The uses of a run -/

namespace Engine

/-- Only resolving a key is a use of it. -/
def usage : Notes Use where
  resolved key site := [(key, site)]
  performed _ _ _ := []
  closed _ us := us

/-- The uses that `execute n` makes. -/
abbrev uses (n : Nat) : Tracer Use := trace usage n

/-- A render calls the main section once the mounted node is empty. -/
def renderUses (n : Nat) (e : Engine) : List Use :=
  (Action.clean e.started).next (callTrace (uses n) mainLabel .renderable)

def bootUses (n : Nat) (mount : Handle) (e : Engine) : List Use :=
  if e.sections.contains initLabel then
    callTrace (uses n) initLabel .callable (Action.mounted mount e) ++
      (Action.invoke n rootSite initLabel .callable (Action.mounted mount e)).next (renderUses n)
  else renderUses n (Action.mounted mount e)

/-- Handlers run up to the first that fails. -/
def deliverUses (n : Nat) (target : Handle) : List Listener → Engine → List Use
  | [], _ => []
  | l :: ls, e =>
    callTrace (uses n) l.handler .callable { e with focus := some target } ++
      (Action.withFocus target (Action.invoke n l.site l.handler .callable) e).next (deliverUses n target ls)

end Engine

/-- The uses that a request makes. -/
def Request.uses (n : Nat) (e : Engine) : Request → List Use
  | .register key => [(key, (e.sites.resolve key).1)]
  | .boot mount => Engine.bootUses n mount e
  | .render => Engine.renderUses n e
  | .poll => if e.isDue then Engine.renderUses n (Action.disarmed e) else []
  | .dispatch target event =>
    Engine.deliverUses n target (Action.listenersOn (e.tree.lineage target) event e.listeners) e
  | .execute code => Engine.uses n code e
  | .container site enclosure code => Engine.containerTrace Engine.usage (Engine.uses n) site enclosure code e
  | .conditional site code => Engine.conditionalTrace (Engine.uses n) site code e
  | .perform site operation => Engine.performTrace Engine.usage (Engine.uses n) site e operation
  | _ => []

/-- Requests lead from one engine to another and make these uses on the way. -/
inductive Engine.Leads (e : Engine) : List Use → Engine → Prop
  | start : Leads e [] e
  | request {us : List Use} {e₁ e₂ : Engine} (n : Nat) (r : Request) (h : Leads e us e₁)
    (hr : (r.run n e₁).engine? = some e₂) : Leads e (us ++ r.uses n e₁) e₂

namespace Action

open Engine

variable {α β : Type} {e : Engine} {us : List Use} {n : Nat}

/-! ### What resolves nothing -/

/-- The registry is left alone. -/
def SameSites (e e' : Engine) : Prop := e'.sites = e.sites

theorem quiet_sites : Quiet SameSites where
  refl _ := rfl
  trans hab hbc := Eq.trans hbc hab
  stack _ _ := rfl
  time _ := rfl
  arm _ _ := rfl
  count _ _ := rfl
  pending _ := rfl
  focus _ h := h
  context _ h := h

theorem sites_onTree (f : Tree → Except Tree.Fault Tree) : Keeps SameSites (onTree f) := by
  intro e
  unfold onTree
  split
  · rfl
  · rfl

/-- Apart from resolving its own key, no instruction touches the registry. -/
theorem threaded_sites : Threaded fun x => Keeps SameSites x :=
  { quiet_sites.inward with
    make := fun _ _ => rfl
    place := fun _ => sites_onTree _
    setText := fun _ _ => sites_onTree _
    release := fun _ _ => rfl
    undo := fun _ _ hx => quiet_sites.onFault hx fun _ => rfl
    inFrame := fun _ _ hb => .bracket hb fun _ _ => id
    withFocus := fun _ _ hb => .bracket hb fun _ _ => id
    listener := fun _ _ => rfl }

theorem sites_close (enclosure : Enclosure) (node : Handle) : Keeps SameSites (close enclosure node) := by
  refine quiet_sites.bind threaded_sites.target fun parent => .ite ?_ (sites_onTree _)
  refine quiet_sites.bind (quiet_sites.ofTree _) fun children => ?_
  exact quiet_sites.bind (threaded_sites.appendAll parent children) fun _ => threaded_sites.release [node]

theorem sites_recover (fault : Fault) : Keeps SameSites (recover fault) := by
  have hshow : Keeps SameSites (showError (.ofFault fault)) := threaded_sites.showError (fun _ => sites_onTree _) _
  exact threaded_sites.recover (fun _ => rfl) hshow.attempt fun _ => rfl

theorem sites_clean : Keeps SameSites clean := by
  refine quiet_sites.bind (quiet_sites.get _) fun mount => quiet_sites.bind (sites_onTree _) fun _ => ?_
  exact quiet_sites.bind (sites_onTree _) fun _ => quiet_sites.bind (sites_onTree _) fun _ _ => rfl

theorem sites_judge : Keeps SameSites judge := by
  refine quiet_sites.bind (quiet_sites.get _) fun e => .ite ?_ (quiet_sites.pure ())
  exact quiet_sites.bind (fun _ => rfl) fun _ => quiet_sites.fail _

/-! ### Code -/

/-- On this engine the action makes these uses of the registry. -/
def Uses (us : List Use) (x : Action α) (e : Engine) : Prop := (x e).Leaves fun e' => e.sites.Answers us e'.sites

theorem Uses.none {x : Action α} (hx : Keeps SameSites x) : Uses [] x e :=
  (hx e).mono fun _ (hsame : _ = _) => hsame ▸ .nil _

theorem Uses.leaves {x : Action α} {e' : Engine} (hx : Uses us x e)
    (hr : (x e).engine? = some e') : e.sites.Answers us e'.sites := Outcome.Leaves.engine hx hr

/-- One action after another. -/
theorem Uses.bind {x : Action α} {f : α → Action β} {next : Engine → List Use} (hx : Uses us x e)
    (hf : ∀ a e' j, x e = .done a e' j → Uses (next e') (f a) e') : Uses (us ++ (x e).next next) (x >>= f) e := by
  unfold Uses at *
  cases hr : x e with
  | done a e' j =>
    rw [hr] at hx
    rw [bind_of_done hr, Outcome.leaves_after]
    exact (hf a e' j hr).mono fun _ => hx.trans
  | failed fault e' j =>
    rw [hr] at hx
    rw [bind_of_failed hr, Outcome.next, List.append_nil]
    exact hx
  | tooDeep =>
    rw [bind_of_tooDeep hr]
    trivial

/-- The fault of the first action is dealt with, by which nothing is resolved. -/
theorem Uses.attempt {x : Action α} {f : Except Fault α → Action β} {next : Engine → List Use} (hx : Uses us x e)
    (hd : ∀ a e' j, x e = .done a e' j → Uses (next e') (f (.ok a)) e')
    (hf : ∀ fault, Keeps SameSites (f (.error fault))) : Uses (us ++ (x e).next next) (attempt x >>= f) e := by
  unfold Uses at *
  cases hr : x e with
  | done a e' j =>
    rw [hr] at hx
    rw [attempt_of_done hr, Outcome.leaves_after]
    exact (hd a e' j hr).mono fun _ => hx.trans
  | failed fault e' j =>
    rw [hr] at hx
    rw [attempt_of_failed hr, Outcome.leaves_after, Outcome.next, List.append_nil]
    exact (hf fault e').mono fun _ (hsame : _ = _) => hsame ▸ hx
  | tooDeep =>
    rw [attempt_of_tooDeep hr]
    trivial

/-- What follows resolves nothing. -/
theorem Uses.before {x : Action α} {f : α → Action β} (hx : Uses us x e) (hf : ∀ a, Keeps SameSites (f a)) :
    Uses us (x >>= f) e := by
  have hnone : ∀ a e' j, x e = .done a e' j → Uses [] (f a) e' := fun a _ _ _ => .none (hf a)
  simpa using hx.bind hnone

theorem uses_perform {operation : Operation} (hother : ∀ label mode, operation ≠ .call label mode)
    (run : List Instruction → Action Unit) (site : Nat) : Uses [] (perform run site operation) e :=
  .none (threaded_sites.perform fun label mode h => absurd h (hother label mode))

/-- Code makes the uses that are noted for it. Nothing but resolving a key touches the registry. -/
theorem noting_uses :
    Noting usage Steady fun e us o => e.tree.Sound → o.Leaves fun e' => e.sites.Answers us e'.sites where
  keeps := stable_steady.closed
  tooDeep _ := trivial
  after _ ho ht := Outcome.leaves_after.2 (ho ht)
  idle _ _ _ := .nil _
  failed _ _ _ _ := .nil _
  seq hsteady hx ho ht := Outcome.leaves_after.2 ((ho (hsteady.sound ht)).mono fun _ => (hx ht).trans)
  context ho ht := Outcome.leaves_mapEngine.2 (ho ht)
  frame _ ho ht := Outcome.leaves_mapEngine.2 (ho ht)
  resolve ho ht := (ho ht).mono fun _ => Registry.Answers.cons
  perform run _ hother _ := uses_perform hother run _
  container {e site enclosure body us} hplain _ hbody ht := by
    simp only [Context.plain, Bool.or_eq_false_iff, Bool.not_eq_false', decide_eq_false_iff_not] at hplain
    obtain ⟨journal, hc⟩ := @container_eq site enclosure body e ht hplain.1 hplain.2
    have hinner := hbody (opened_writable ht site enclosure).sound
    rw [hc, Outcome.leaves_after]
    cases hr : body (e.opened site enclosure) with
    | done _ e' j =>
      rw [hr] at hinner
      refine Outcome.leaves_after.2 ((sites_close _ _ _).mono fun _ (hsame : _ = _) => ?_)
      exact hsame ▸ hinner
    | failed fault e' j =>
      rw [hr] at hinner
      exact hinner
    | tooDeep => trivial

/-! ### Requests -/

theorem uses_invoke (he : e.AtRest) (n site : Nat) (label : String) (mode : Mode) :
    Uses (callTrace (uses n) label mode e) (invoke n site label mode) e :=
  noting_uses.invoke n site label mode e he.sound

theorem uses_render (he : e.AtRest) (n : Nat) : Uses (renderUses n e) (render n) e := by
  have hpass : Uses (renderUses n e) (renderPass n) e.started := by
    rw [renderPass_eq, rebuild_eq]
    have hclean : Uses [] clean e.started := .none sites_clean
    refine Uses.before (hclean.bind fun _ e₁ j hr => ?_) fun _ => sites_judge
    have hrest : e₁.AtRest := hosted_rests.staged.readies ⟨j, hr⟩ he
    exact uses_invoke hrest n rootSite mainLabel .renderable
  -- what comes after the pass, with the error display or without, resolves nothing
  have hended : ∀ e : Engine, e.ended.sites = e.sites := by
    intro e
    obtain ⟨_, _, h⟩ := e.ended_eq
    rw [h]
  unfold Uses at *
  cases hp : renderPass n e.started with
  | done _ e₁ j =>
    rw [hp] at hpass
    obtain ⟨_, -, hdone⟩ := render_of_passed hp
    rw [hdone, Outcome.Leaves, hended]
    exact hpass
  | failed fault e₁ j =>
    rw [hp] at hpass
    have hsame := sites_recover fault e₁
    obtain ⟨e₂, j', _, hrec, -⟩ := recover_done fault e₁
    obtain ⟨_, -, hdone⟩ := render_of_faulted hp hrec
    rw [hrec] at hsame
    rw [hdone, Outcome.Leaves, hended, show e₂.sites = e₁.sites from hsame]
    exact hpass
  | tooDeep =>
    rw [render_of_tooDeep hp]
    trivial

theorem uses_boot (he : e.AtRest) (n : Nat) (mount : Handle) : Uses (bootUses n mount e) (boot n mount) e := by
  have hmounted : (mounted mount e).AtRest := hosted_rests.mount e mount he
  unfold bootUses Uses
  cases hi : e.sections.contains initLabel with
  | false =>
    rw [boot_without_init n mount hi, Outcome.leaves_after]
    exact uses_render hmounted n
  | true =>
    rw [boot_with_init n mount hi, Outcome.leaves_after]
    refine (uses_invoke hmounted n rootSite initLabel .callable).attempt (fun _ e₁ j hr => ?_) fun fault => ?_
    · have hrests := hosted_rests.staged.invoke n rootSite initLabel .callable (mounted mount e)
      rw [hr] at hrests
      exact uses_render (hrests hmounted) n
    · exact sites_recover fault

theorem uses_poll (he : e.AtRest) (n : Nat) :
    Uses (if e.isDue then renderUses n (disarmed e) else []) (poll n) e := by
  unfold Uses
  cases hd : e.isDue with
  | false =>
    rw [poll_of_early n hd]
    exact .nil _
  | true =>
    rw [poll_of_due n hd]
    have hrest : (disarmed e).AtRest := ⟨he.sound, he.frames, he.context⟩
    exact (uses_render hrest n).before fun _ => quiet_sites.pure _

theorem uses_deliver (he : e.AtRest) (n : Nat) (target : Handle) (ls : List Listener) :
    Uses (deliverUses n target ls e) (deliver n target ls) e := by
  induction ls generalizing e with
  | nil => exact .nil _
  | cons l ls ih =>
    have hhandler : Uses (callTrace (uses n) l.handler .callable { e with focus := some target })
        (withFocus target (invoke n l.site l.handler .callable)) e :=
      Outcome.leaves_mapEngine.2 (uses_invoke (hosted_rests.focus e _ he) n l.site l.handler .callable)
    refine hhandler.attempt (fun _ e₁ j hr => ?_) fun fault => ?_
    · have hrests := hosted_rests.staged.keeps (stable_steady.withFocus target
        (stable_steady.closed.invoke n l.site l.handler .callable)) e
      rw [hr] at hrests
      exact (ih (hrests he)).before fun _ => quiet_sites.pure _
    · exact quiet_sites.bind (sites_recover fault) fun _ => quiet_sites.pure _

/-- A request makes the uses that are listed for it, and no others. -/
theorem uses_request (he : e.AtRest) (n : Nat) (r : Request) : Uses (r.uses n e) (r.run n) e := by
  have hcode := noting_uses.execute n
  cases r with
  | load p => exact .none (quiet_sites.toChain.loadProgram (fun _ _ => rfl) (fun _ _ => rfl) (fun _ _ => rfl) p)
  | define d => exact .none (quiet_sites.toChain.define (fun _ _ => rfl) _)
  | strings | constants | trust | advance | lapse | edit | focus => exact .nil _
  | register key => exact Registry.Answers.cons (.nil _)
  | boot mount => exact uses_boot he n mount
  | render => exact uses_render he n
  | poll => exact (uses_poll he n).before fun _ => quiet_sites.pure _
  | dispatch target event =>
    refine Uses.before ?_ fun _ => quiet_sites.pure _
    unfold Uses
    rw [dispatch_eq, Outcome.leaves_after]
    exact uses_deliver he n target _
  | execute code => exact hcode code e he.sound
  | container site enclosure code =>
    exact noting_uses.block (noting_uses.keeps.execute n) hcode site enclosure code e he.sound
  | conditional site code => exact noting_uses.conditional hcode site code e he.sound
  | perform site operation => exact noting_uses.single hcode (fun hother _ => uses_perform hother _ site) he.sound
  | push site v => exact .none (threaded_sites.push site v)
  | value site raw content => exact .none (threaded_sites.value site raw content)

end Action

/-! ### Runs -/

namespace Engine

variable {config : Config} {us : List Use} {e e' : Engine}

theorem Leads.atRest (h : e.Leads us e') (he : e.AtRest) : e'.AtRest := by
  induction h with
  | start => exact he
  | request n r _ hr ih => exact (Action.rests_request n r _).engine hr ih

/-- The registry answers all that a run asks of it, and is not changed otherwise. -/
theorem Leads.answers (h : e.Leads us e') (he : e.AtRest) : e.sites.Answers us e'.sites := by
  induction h with
  | start => exact .nil _
  | request n r h hr ih => exact ih.trans ((Action.uses_request (h.atRest he) n r).leaves hr)

/-- An engine starts with the site of the host's own calls. -/
theorem records_new (config : Config) : (new config).sites.Records [(.root, rootSite)] :=
  Registry.records_empty.resolve .root

theorem Leads.records (h : (new config).Leads us e) : e.sites.Records ((.root, rootSite) :: us) :=
  (h.answers (atRest_new config)).records (records_new config)

end Engine

/-- Sites keep their numbers. Whatever keys are resolved one after the other, and wherever the requests of a host lead
an engine, the registry agrees with all uses that have been made so far, and still does so with each of them when others
have been made later. Two uses have the same number exactly if they are of the same key. The numbers are 0, 1, 2 and so
on in the order in which keys are first used, where an engine starts with the root. A number leads back to its key and
the key to its number. A key that is looked up is found exactly if it has been used. Two tables that are written apart
answer the same uses alike, and they are inverse to each other at every time. -/
theorem Registry.agrees_with_every_use :
    (∀ keys later us us' r r', empty.resolveAll keys = (us, r) → r.resolveAll later = (us', r') →
      us.map Prod.fst = keys ∧ r.Agrees us ∧ r'.Agrees (us ++ us') ∧
      ∃ t t', useAll Tables.resolve .empty keys = (us, t) ∧ useAll Tables.resolve t later = (us', t') ∧
        t.Mirrors r ∧ t'.Mirrors r') ∧
    ∀ config us us' e e', (Engine.new config).Leads us e → e.Leads us' e' →
      e.sites.Agrees ((.root, Engine.rootSite) :: us) ∧ e'.sites.Agrees ((.root, Engine.rootSite) :: us ++ us') ∧
      ∃ t t', useAll Tables.resolve .empty (.root :: us.map Prod.fst) = ((.root, Engine.rootSite) :: us, t) ∧
        useAll Tables.resolve t (us'.map Prod.fst) = (us', t') ∧ t.Mirrors e.sites ∧ t'.Mirrors e'.sites := by
  refine ⟨fun keys later us us' r r' hr hr' => ?_, fun config us us' e e' h h' => ?_⟩
  · have hus := empty.map_fst_resolveAll keys
    have hus' := r.map_fst_resolveAll later
    have hanswers := empty.answers_resolveAll keys
    have hlater := r.answers_resolveAll later
    rw [hr] at hus hanswers
    rw [hr'] at hus' hlater
    have hrecords : r.Records us := hanswers.records records_empty
    obtain ⟨t, ht, hmirrors⟩ := Tables.mirrors_empty.of_answers hanswers
    obtain ⟨t', ht', hmirrors'⟩ := hmirrors.of_answers hlater
    rw [hus] at ht
    rw [hus'] at ht'
    exact ⟨hus, hrecords.agrees, (hlater.records hrecords).agrees, t, t', ht, ht', hmirrors, hmirrors'⟩
  · have hrest := h.atRest (Engine.atRest_new config)
    have hanswers := h'.answers hrest
    have hfirst : empty.Answers [(.root, Engine.rootSite)] (Engine.new config).sites := rfl
    obtain ⟨t, ht, hmirrors⟩ := Tables.mirrors_empty.of_answers (hfirst.trans (h.answers (Engine.atRest_new config)))
    obtain ⟨t', ht', hmirrors'⟩ := hmirrors.of_answers hanswers
    exact ⟨h.records.agrees, (hanswers.records h.records).agrees, t, t', ht, ht', hmirrors, hmirrors'⟩

/-- Code whose keys read the same inside and outside a container, and the host, which registers one of them again. -/
theorem Registry.agrees_with_every_use_echoed :
    ∃ e e', (Engine.new {}).Leads [(.number 4, 1), (.symbol "4", 2), (.root, 0)] e ∧ e.Leads [(.number 4, 1)] e' ∧
      e'.sites.Agrees [(.root, 0), (.number 4, 1), (.symbol "4", 2), (.root, 0), (.number 4, 1)] := by
  let code : Request := .execute
    [.container (.number 4) .plain [.single (.symbol "4") .render], .single .root .render]
  have huses : code.uses 3 (.new {}) = [(.number 4, 1), (.symbol "4", 2), (.root, 0)] := by decide +kernel
  have hrun : (code.run 3 (.new {})).engine?.map (fun e => (Request.register (.number 4)).uses 0 e) =
      some [(.number 4, 1)] := by decide +kernel
  obtain ⟨e, hr, hregister⟩ := Option.map_eq_some_iff.1 hrun
  have h : (Engine.new {}).Leads (code.uses 3 (.new {})) e := .request 3 code .start hr
  have h' : e.Leads ((Request.register (.number 4)).uses 0 e) _ := .request 0 (.register (.number 4)) .start rfl
  rw [huses] at h
  rw [hregister] at h'
  exact ⟨e, _, h, h', (agrees_with_every_use.2 {} _ _ e _ h h').2.1⟩

end Trellis
