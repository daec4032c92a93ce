import Trellis.Proofs.Engine.Confined
import Trellis.Proofs.Rendering.Evaluator
import Trellis.Proofs.Tree.Recorded

/-!
# Code only adds to the node it writes to

The node that output goes to is the target of the innermost frame. Whatever code does to the tree comes down to new
nodes after that node's children and to events recorded there, also when the code fails: elements that a container
has built by then are released. Each instruction that makes output gets one exact statement of what it adds; that
code of any length and depth only adds follows from them.
-/
namespace Trellis

open Tree (Handle Node Grown)

theorem toLower_eq_of_toList {s t : String} (h : s.toList.map Char.toLower = t.toList) : s.toLower = t := by
  rw [← String.toList_inj]
  exact String.toList_map.trans h

/-- The innermost frame has a live element as its target. -/
structure Engine.Writable (e : Engine) (h : Handle) : Prop where
  sound : e.tree.Sound
  target : e.frames.head?.map (·.target) = some h
  element : ∃ n, e.tree.find? h = some n ∧ n.isText = false

namespace Engine.Writable

variable {e e' : Engine} {h : Handle}

theorem contains (hw : e.Writable h) : e.tree.contains h = true := by
  obtain ⟨n, hn, -⟩ := hw.element
  rw [Tree.contains, hn]
  rfl

/-- A tree that has grown can be written to in the same place. -/
theorem grown {ns : List Node} {events : List String} (hw : e.Writable h) (hf : e'.frames = e.frames)
    (hg : Grown h e.tree e'.tree ns events) : e'.Writable h := by
  obtain ⟨n, hn, hnt⟩ := hw.element
  exact ⟨hg.sound, by rw [hf, hw.target], n.extend ns events, hg.find? hn, by simpa using hnt⟩

end Engine.Writable

namespace Tree.Node

/-- The nodes made from markup are that markup, with attributes in order. -/
theorem toMarkupAll_ofMarkupAll (pool : Pool) (ms : List Markup) :
    toMarkupAll (ofMarkupAll pool ms).1 = Markup.normalAll ms := by
  induction ms using Markup.forestInduction generalizing pool with
  | nil => simp [ofMarkupAll, Markup.normalAll]
  | text content ms ih => simp [ofMarkupAll, ofMarkup, toMarkup, Markup.normalAll, Markup.normal, ih]
  | element tag attributes children ms ihc ihs =>
    simp [ofMarkupAll, ofMarkup, toMarkup, Markup.normalAll, Markup.normal, ihc, ihs]

theorem toMarkup_setAttributes_set (name value : String) (n : Node) :
    (n.setAttributes (.set name value)).toMarkup = n.toMarkup.setAttribute name value := by
  cases n <;> simp [setAttributes, toMarkup, Markup.setAttribute]

theorem toMarkupAll_map_setAttributes_set (name value : String) (ns : List Node) :
    toMarkupAll (ns.map (.setAttributes (.set name value))) =
      (toMarkupAll ns).map (.setAttribute name value) := by
  induction ns with
  | nil => simp
  | cons n ns ih => simp [ih, toMarkup_setAttributes_set]

/-- Events do not show in markup. -/
theorem toMarkup_extend (ns : List Node) (events : List String) (n : Node) :
    (n.extend ns events).toMarkup = (n.setChildren (· ++ ns)).toMarkup := by
  have key : ∀ n : Node, (events.foldl (fun n event => n.addEvent event) n).toMarkup = n.toMarkup := by
    induction events with
    | nil => exact fun _ => rfl
    | cons event events ih =>
      intro n
      rw [List.foldl_cons, ih]
      cases n <;> simp [addEvent, toMarkup]
  rw [extend, key]

end Tree.Node

namespace Action

variable {α : Type} {e : Engine} {h : Handle}

theorem target_of_head (ht : e.frames.head?.map (·.target) = some h) : target e = .done h e [] := by
  unfold target
  rw [bind_of_done (x := get _) (e := e) rfl]
  cases hf : e.frames.head? with
  | none => simp [hf] at ht
  | some frame =>
    simp only [hf, Option.map_some, Option.some.injEq] at ht
    rw [← ht]
    rfl

theorem target_of_none (hf : e.frames.head? = none) : target e = .failed .noFrame e [] := by
  have hget : get (·.frames.head?) e = .done none e [] := by rw [get, hf]
  exact (bind_of_done hget).trans rfl

/-- Whether a section may be entered is decided by the owner of the innermost frame. -/
theorem discipline_of_frame {frame : Frame Handle} (hframe : e.frames.head? = some frame) (callee : Section)
    (mode : Mode) :
    discipline callee mode e =
      if Evaluation.allowed frame.owner.renderable callee mode then .done () e []
      else .failed (.callDiscipline callee.label mode) e [] := by
  have hend : ∀ (x : Action Bool) (allowed : Bool), x e = .done allowed e [] → (do
      if !(← x) then fail (.callDiscipline callee.label mode)) e =
        if allowed then .done () e [] else .failed (.callDiscipline callee.label mode) e [] := by
    intro x allowed hx
    rw [bind_of_done hx]
    cases allowed with
    | false => rfl
    | true => rfl
  cases mode with
  | any => exact hend (pure true) true rfl
  | callable => exact hend (pure !callee.renderable) _ rfl
  | renderable =>
    have hget : get (·.frames.head?) e = .done (some frame) e [] := by rw [get, hframe]
    refine (bind_of_done hget).trans ?_
    rw [Outcome.after_nil]
    exact hend (pure (frame.owner.renderable = callee.renderable)) _ rfl

/-- The check reads the engine only. -/
theorem discipline_cases (callee : Section) (mode : Mode) (e : Engine) :
    discipline callee mode e = .done () e [] ∨ ∃ fault, discipline callee mode e = .failed fault e [] := by
  have hend : ∀ (x : Action Bool) (allowed : Bool), x e = .done allowed e [] → (do
      if !(← x) then fail (.callDiscipline callee.label mode)) e = .done () e [] ∨ ∃ fault, (do
      if !(← x) then fail (.callDiscipline callee.label mode)) e = .failed fault e [] := by
    intro x allowed hx
    rw [bind_of_done hx]
    cases allowed with
    | false => exact .inr ⟨_, rfl⟩
    | true => exact .inl rfl
  cases mode with
  | any => exact hend (pure true) true rfl
  | callable => exact hend (pure !callee.renderable) _ rfl
  | renderable =>
    cases hframe : e.frames.head? with
    | some frame =>
      rw [discipline_of_frame hframe]
      split
      · exact .inl rfl
      · exact .inr ⟨_, rfl⟩
    | none =>
      have hget : get (·.frames.head?) e = .done none e [] := by rw [get, hframe]
      exact .inr ⟨.noFrame, (bind_of_done hget).trans rfl⟩

/-- A source has the value that the evaluator loads, and to load it changes nothing. -/
theorem load_eq (site : Nat) (source : Source) (e : Engine) :
    ∃ journal, load site source e =
      match Evaluation.load e.resources e.stack source with
      | .ok v => .done v e journal
      | .error fault => .failed fault e journal := by
  cases source with
  | string key =>
    rw [load, bind_of_done (x := get _) rfl, Evaluation.load]
    cases e.resources.string key with
    | ok s => exact ⟨_, rfl⟩
    | error fault => exact ⟨_, rfl⟩
  | constant key =>
    rw [load, bind_of_done (x := get _) rfl, Evaluation.load]
    cases e.resources.constant key with
    | ok x => exact ⟨_, rfl⟩
    | error fault => exact ⟨_, rfl⟩
  | stack offset =>
    rw [load, peek, bind_of_done (x := get _) rfl, Evaluation.load]
    cases e.stack.peek offset.toNat with
    | ok v => exact ⟨_, rfl⟩
    | error fault => exact ⟨_, rfl⟩

theorem onTree_of_ok {f : Tree → Except Tree.Fault Tree} {t : Tree} (hf : f e.tree = .ok t) :
    onTree f e = .done () { e with tree := t } [] := by
  rw [onTree, hf]

theorem onTree_of_error {f : Tree → Except Tree.Fault Tree} {fault : Tree.Fault} (hf : f e.tree = .error fault) :
    onTree f e = .failed (.tree fault) e [] := by
  rw [onTree, hf]

/-! ### Leaves and listeners -/

/-- An element that an instruction has made, with its site. -/
def tagged (c : Handle) (tag name : String) (children : List Node) : Node :=
  .element c tag [(siteAttribute, name)] [] children

/-- A new element with its site stands at the top. -/
theorem setAttribute_createElement {t : Tree} (ht : t.Sound) (tag name : String) :
    (t.createElement tag).2.setAttribute (t.createElement tag).1 siteAttribute name =
      .ok ⟨tagged t.pool.take.1 tag.toLower name [] :: t.nodes, t.pool.take.2⟩ :=
  @Tree.setAttributes_top (t.createElement tag).2 [] t.nodes (.element t.pool.take.1 tag.toLower [] [] [])
    (ht.createElement tag) rfl rfl (.set siteAttribute name)

theorem sound_tagged {t : Tree} (ht : t.Sound) (tag name : String) :
    Tree.Sound ⟨tagged t.pool.take.1 tag.toLower name [] :: t.nodes, t.pool.take.2⟩ :=
  (ht.createElement tag).setAttributes (setAttribute_createElement ht tag name)

/-- An action ends and has changed the tree only: it has added nodes that are the given markup and have no events. -/
def Adds (h : Handle) (e : Engine) (ms : List Markup) (o : Outcome Unit) : Prop :=
  ∃ t ns, o = .done () { e with tree := t } [] ∧ Grown h e.tree t ns [] ∧ Node.toMarkupAll ns = ms ∧
    Node.recordedAll ns = []

theorem Adds.ite {e' : Engine} {ms : List Markup} {c : Prop} [Decidable c] {x y : Action Unit}
    (hx : c → Adds h e ms (x e')) (hy : ¬ c → Adds h e ms (y e')) :
    Adds h e ms ((if c then x else y) e') := by
  split
  · next hc => exact hx hc
  · next hc => exact hy hc

theorem leaf_adds (hw : e.Writable h) (site : Nat) (tag : String) :
    Adds h e [Evaluation.element tag.toLower ("elem-" ++ e.sites.label site) []] (leaf site tag e) := by
  obtain ⟨n, hn, hnt⟩ := hw.element
  have hset := setAttribute_createElement hw.sound tag ("elem-" ++ e.sites.label site)
  obtain ⟨t, happend, hg⟩ := Grown.append_new
    (sound_tagged hw.sound tag ("elem-" ++ e.sites.label site)) rfl hn hnt
  refine ⟨t, _, ?_, hg, by simp [tagged, Node.toMarkup, Evaluation.element], by simp [tagged, Node.recorded]⟩
  unfold leaf
  rw [bind_of_done (target_of_head hw.target), bind_of_done (x := make _) rfl,
    bind_of_done (x := label site) rfl, bind_of_done (onTree_of_ok hset), onTree_of_ok happend]
  rfl

theorem listen_of_writable (hw : e.Writable h) (site : Nat) (event handler : String) :
    ∃ t journal, listen site event handler e =
        .done () { e with tree := t, listeners := e.listeners ++ [⟨site, h, event, handler⟩] } journal ∧
      Grown h e.tree t [] [event] := by
  obtain ⟨n, hn, hnt⟩ := hw.element
  have hadd : e.tree.addEvent h event = .ok (e.tree.update h (.addEvent event)) :=
    Tree.addEvent_eq_ok_iff.mpr ⟨n, hn, rfl⟩
  have hg : Grown h e.tree (e.tree.update h (.addEvent event)) [] [event] := by
    refine ⟨hw.sound.addEvent hadd, [], by simp, ?_⟩
    refine (Node.updateAmong_congr _ fun m _ => ?_).trans (List.nil_append _).symm
    cases m <;> simp [Node.extend, Node.setChildren]
  unfold listen
  rw [bind_of_done (target_of_head hw.target), bind_of_done (onTree_of_ok hadd),
    bind_of_done (x := label site) rfl, bind_of_done (x := log _) rfl]
  exact ⟨_, _, rfl, hg⟩

/-! ### Values -/

section

variable {n : Node}

/-- A text is added in an element of its own, also where something has been taken out again before. -/
theorem plainValue_adds {t : Tree} (hg : Grown h e.tree t [] []) (hn : e.tree.find? h = some n)
    (hnt : n.isText = false) (name text : String) :
    Adds h e [Evaluation.element "span" name [.text text]] (plainValue name h text { e with tree := t }) := by
  have ht := hg.sound
  have hspan : "span".toLower = "span" := toLower_eq_of_toList (by decide)
  obtain ⟨x, pool, htext⟩ := Tree.setText_createElement ht "span" text
  rw [hspan] at htext
  have ht₁ := (ht.createElement "span").setText htext
  have hset := @Tree.setAttributes_top _ [] t.nodes _ ht₁ rfl rfl (.set siteAttribute name)
  have ht₂ := ht₁.setAttributes hset
  have hn' := hg.find? hn
  rw [Node.extend_nil] at hn'
  obtain ⟨t', happend, hg'⟩ := @Grown.append_new t _ h
    (tagged t.pool.take.1 "span" name [.text x text []]) n ht₂ rfl hn' hnt
  refine ⟨t', _, ?_, hg.trans hg' (by rw [Tree.contains, hn]; rfl), ?_, by simp [tagged, Node.recorded]⟩
  · unfold plainValue
    rw [bind_of_done (x := make _) rfl, bind_of_done (onTree_of_ok htext), bind_of_done (onTree_of_ok hset),
      onTree_of_ok happend]
    rfl
  · simp [tagged, Node.toMarkup, Evaluation.element]

/-- Nodes at the top are tagged and appended one after the other. -/
theorem appendTagged_of_top {t₀ : Tree} {ms : List Node} (hn : t₀.find? h = some n) (hnt : n.isText = false)
    (name : String) (moved : List Node) (ht : e.tree.Sound)
    (hnodes : e.tree.nodes = ms ++ Node.updateAmong h (.extend moved []) t₀.nodes) :
    ∃ t, appendTagged name h (ms.map Node.handle) e = .done () { e with tree := t } [] ∧
      Grown h t₀ t (moved ++ ms.map (.setAttributes (.set siteAttribute name))) [] := by
  induction ms generalizing moved e with
  | nil => exact ⟨e.tree, rfl, ht, [], by simp, by simpa using hnodes⟩
  | cons m ms ih =>
    have htop : e.tree.nodes = [] ++ m :: (ms ++ Node.updateAmong h (.extend moved []) t₀.nodes) := hnodes
    have htext : e.tree.isText m.handle = m.isText := by
      rw [Tree.isText, Tree.find?, htop, Node.findAmong?_middle (htop ▸ ht.nodup)]
      rfl
    -- whatever tagging does, the node is then appended and the others follow
    have hrest : ∀ t₁ : Tree, t₁.Sound →
        t₁.nodes = ([] ++ m.setAttributes (.set siteAttribute name) :: ms) ++
          Node.updateAmong h (.extend moved []) t₀.nodes →
        ∃ t, (do
          onTree (·.append h m.handle)
          appendTagged name h (ms.map Node.handle)) { e with tree := t₁ } = .done () { e with tree := t } [] ∧
        Grown h t₀ t (moved ++ (m :: ms).map (.setAttributes (.set siteAttribute name))) [] := by
      intro t₁ ht₁ hnodes₁
      obtain ⟨t₂, happend, ht₂, hnodes₂⟩ := Grown.append ht₁ hnodes₁ hn hnt
      rw [Node.handle_setAttributes] at happend
      obtain ⟨t, hrun, hg⟩ := @ih { e with tree := t₂ } _ ht₂ hnodes₂
      refine ⟨t, ?_, by simpa using hg⟩
      rw [bind_of_done (onTree_of_ok (e := { e with tree := t₁ }) happend), hrun]
      rfl
    rw [List.map_cons, appendTagged, bind_of_done (x := get _) rfl, htext]
    cases hm : m.isText with
    | true =>
      have hself : m.setAttributes (.set siteAttribute name) = m := by
        cases m with
        | element => cases hm
        | text => rfl
      obtain ⟨t, hrun, hg⟩ := hrest e.tree ht (by rw [hself]; exact hnodes)
      exact ⟨t, by simpa using hrun, hg⟩
    | false =>
      have hset := Tree.setAttributes_top ht htop hm (.set siteAttribute name)
      obtain ⟨t, hrun, hg⟩ := hrest _ (ht.setAttributes hset) rfl
      refine ⟨t, ?_, hg⟩
      simp only [Bool.not_false, if_true, Outcome.after_nil]
      rw [bind_of_done (onTree_of_ok hset), hrun]
      rfl

end

/-- Nodes that are nothing or a single text are taken out again. -/
theorem grown_releaseAll {t t' : Tree} {ns : List Node} (ht' : t'.Sound)
    (hnodes : t'.nodes = ns ++ Node.updateAmong h (.extend [] []) t.nodes)
    (hp : Evaluation.isPlain (Node.toMarkupAll ns) = true) :
    Grown h t ((ns.map Node.handle).foldl Tree.release t') [] [] := by
  match ns with
  | [] => exact ⟨ht', [], by simp, hnodes⟩
  | [m] => exact @Grown.release t t' h [] [] [] m ht' (by simp) hnodes
  | _ :: _ :: _ => simp [Evaluation.isPlain] at hp

/-- Whether there is only text can be seen from the new nodes. -/
theorem isPlain_toMarkupAll {t : Tree} {ns ms : List Node} (ht : t.Sound) (hnodes : t.nodes = ns ++ ms) :
    (match ns.map Node.handle with
      | [] => true
      | [node] => t.isText node
      | _ => false) = Evaluation.isPlain (Node.toMarkupAll ns) := by
  match ns with
  | [] => rfl
  | [m] =>
    have hm := @Node.findAmong?_middle [] ms m (hnodes ▸ ht.nodup)
    rw [List.nil_append] at hm
    simp only [List.map_cons, List.map_nil, Tree.isText, Tree.find?, hnodes, List.singleton_append, hm]
    cases m <;> simp [Node.isText, Evaluation.isPlain, Node.toMarkup, Markup.isText]
  | _ :: _ :: _ => simp [Evaluation.isPlain]

/-- A value adds the markup that shows it. -/
theorem value_adds (hw : e.Writable h) (site : Nat) (raw : Bool) (content : Value) :
    Adds h e (Evaluation.shown raw ("rawValue-" ++ e.sites.label site) content.toText)
      (value site raw content e) := by
  obtain ⟨n, hn, hnt⟩ := hw.element
  unfold value
  rw [bind_of_done (target_of_head hw.target), bind_of_done (x := label site) rfl]
  generalize "rawValue-" ++ e.sites.label site = name
  generalize content.toText = text
  simp only [Outcome.after_nil]
  cases raw with
  | false => exact plainValue_adds (.refl hw.sound h) hn hnt name text
  | true =>
    obtain ⟨ns, t, hparse, hnodes, hmarkup, hevents⟩ : ∃ ns t, e.tree.parse text = (ns.map Node.handle, t) ∧
        t.nodes = ns ++ Node.updateAmong h (.extend [] []) e.tree.nodes ∧
        Node.toMarkupAll ns = Markup.normalAll (Markup.parse text) ∧ Node.recordedAll ns = [] :=
      ⟨_, _, rfl, by rw [Node.updateAmong_eq_self Node.extend_nil], Node.toMarkupAll_ofMarkupAll ..,
        Node.recordedAll_ofMarkupAll ..⟩
    have ht : t.Sound := by simpa [hparse] using hw.sound.parse text
    have hmake : make (·.parse text) e = .done (ns.map Node.handle) { e with tree := t } [] := by
      rw [make, hparse]
    rw [if_pos rfl, bind_of_done hmake, bind_of_done (x := get _) rfl]
    simp only [Outcome.after_nil, Evaluation.shown, Bool.true_and, ← hmarkup]
    apply Adds.ite
    · intro hsingle
      have hp := (isPlain_toMarkupAll ht hnodes).symm.trans hsingle
      rw [hp, if_neg (by simp), bind_of_done (x := modify _) rfl, Outcome.after_nil]
      exact plainValue_adds (grown_releaseAll ht hnodes hp) hn hnt name text
    · intro hsingle
      have hp := (isPlain_toMarkupAll ht hnodes).symm.trans (Bool.eq_false_iff.mpr hsingle)
      obtain ⟨t', hrun, hg⟩ := @appendTagged_of_top { e with tree := t } h n e.tree ns hn hnt name [] ht hnodes
      rw [hp, if_pos (by rfl), hrun]
      exact ⟨t', _, rfl, hg, Node.toMarkupAll_map_setAttributes_set siteAttribute name ns,
        (Node.recordedAll_map_setAttributes _ ns).trans hevents⟩

/-! ### Containers -/

/-- All that a node at the top holds moves, one after the other, to where the tree grows. -/
theorem appendAll_of_children {t₀ : Tree} {n c : Node} {pre ds : List Node} (hn : t₀.find? h = some n)
    (hnt : n.isText = false) (moved : List Node) (ht : e.tree.Sound) (hc : c.isText = false)
    (hds : c.children = ds)
    (hnodes : e.tree.nodes = pre ++ c :: Node.updateAmong h (.extend moved []) t₀.nodes) :
    ∃ t, appendAll h (ds.map Node.handle) e = .done () { e with tree := t } [] ∧ t.Sound ∧
      t.nodes = pre ++ c.setChildren (fun _ => []) ::
        Node.updateAmong h (.extend (moved ++ ds) []) t₀.nodes := by
  induction ds generalizing moved e c with
  | nil =>
    refine ⟨e.tree, rfl, ht, ?_⟩
    rw [hnodes, Node.setChildren_eq_self hds.symm, List.append_nil]
  | cons d ds ih =>
    obtain ⟨t₁, happend, ht₁, hnodes₁⟩ := Grown.append_child ht hnodes hds hn hnt
    obtain ⟨t, hrun, ht', hnodes'⟩ := @ih { e with tree := t₁ } (c.setChildren fun _ => ds) (moved ++ [d])
      ht₁ (by simpa using hc) (Node.children_setChildren_of_isText_false hc) hnodes₁
    refine ⟨t, ?_, ht', ?_⟩
    · rw [List.map_cons, appendAll, bind_of_done (onTree_of_ok happend), hrun]
      rfl
    · rw [hnodes', Node.setChildren_setChildren, List.append_assoc]
      rfl

end Action

/-- The engine once a key is registered. -/
def Engine.registered (e : Engine) (key : Key) : Engine := { e with sites := (e.sites.resolve key).2 }

/-- Code that makes no output of its own: its containers open no frame. -/
def Context.plain (c : Context) : Bool := !c.code.renderable || c.mode = .callable

/-- The engine on which the code of a container runs. -/
def Engine.opened (e : Engine) (site : Nat) (enclosure : Enclosure) : Engine :=
  let c := e.tree.pool.take.1
  { e with
    tree := ⟨Action.tagged c enclosure.tag.toLower ("container-" ++ e.sites.label site) [] :: e.tree.nodes,
      e.tree.pool.take.2⟩
    frames := ⟨site, e.context.code, c, if enclosure = .root then .root else .container⟩ :: e.frames
    focus := some c }

namespace Action

/-- What a container does once its code has ended without a fault. -/
def close (enclosure : Enclosure) (node : Handle) : Action Unit := do
  let parent ← target
  if enclosure = .root then
    appendAll parent (← ofTree (·.children node))
    modify fun e => { e with tree := e.tree.release node }
  else onTree (·.append parent node)

section Container

variable {site : Nat} {enclosure : Enclosure} {body : Action Unit} {e e' : Engine} {h : Handle}

/-- Outside renderable code a container is its code. -/
theorem container_of_plain (hp : (!e.context.code.renderable || e.context.mode = .callable) = true) :
    container site enclosure body e = body e := by
  unfold container
  rw [bind_of_done (x := get _) rfl, if_pos hp, Outcome.after_nil]

/-- What a container does is decided by how its code ends. -/
theorem container_eq (ht : e.tree.Sound) (hr : e.context.code.renderable = true)
    (hm : e.context.mode ≠ .callable) :
    ∃ journal, container site enclosure body e =
      Outcome.after journal
        (match body (e.opened site enclosure) with
        | .done () e' j =>
          (close enclosure e.tree.pool.take.1 { e' with frames := e'.frames.tail, focus := e.focus }).after j
        | .failed fault e' j =>
          .failed fault
            { e' with
              frames := e'.frames.tail
              focus := e.focus
              tree := e'.tree.release e.tree.pool.take.1 } j
        | .tooDeep => .tooDeep) := by
  have hset := setAttribute_createElement ht enclosure.tag ("container-" ++ e.sites.label site)
  unfold container
  rw [bind_of_done (x := get _) rfl, if_neg (by simp [hr, hm]), bind_of_done (x := make _) rfl,
    bind_of_done (x := label site) rfl, bind_of_done (onTree_of_ok hset), bind_of_done (x := get _) rfl,
    bind_of_done (x := log _) rfl]
  simp only [Outcome.after_nil]
  refine ⟨_, congrArg _ ?_⟩
  change Action.bind (onFault _ (inFrame _ (withFocus _ body))) (fun _ => close enclosure e.tree.pool.take.1) _ = _
  unfold Action.bind onFault inFrame withFocus bracket
  generalize hb : body _ = o
  rw [show body (e.opened site enclosure) = o from hb]
  cases o with
  | done a e' j => rfl
  | failed fault e' j => rfl
  | tooDeep => rfl

/-- A container is closed when its element stands at the top, in front of the tree that was there. -/
theorem close_of_top {c n : Node} {stray : List Node} {t₀ : Tree} (htarget : e.frames.head?.map (·.target) = some h)
    (ht : e.tree.Sound) (hstray : ∀ x ∈ stray, x.handle = .root) (hnodes : e.tree.nodes = stray ++ c :: t₀.nodes)
    (hc : c.isText = false) (hn : t₀.find? h = some n) (hnt : n.isText = false) :
    ∃ t, close enclosure c.handle e = .done () { e with tree := t } [] ∧
      Grown h t₀ t (if enclosure = .root then c.children else [c]) [] := by
  have hnodes' : e.tree.nodes = stray ++ c :: Node.updateAmong h (.extend [] []) t₀.nodes := by
    rw [hnodes, Node.updateAmong_eq_self Node.extend_nil]
  unfold close
  rw [bind_of_done (target_of_head htarget)]
  by_cases hroot : enclosure = .root
  · have hchildren : e.tree.children c.handle = .ok (c.children.map Node.handle) := by
      refine Tree.children_eq_ok_iff.mpr ⟨c, ?_, rfl⟩
      rw [Tree.find?, hnodes, Node.findAmong?_middle (hnodes ▸ ht.nodup)]
    have hread : ofTree (·.children c.handle) e = .done (c.children.map Node.handle) e [] := by
      rw [ofTree, hchildren]
    obtain ⟨t, hrun, ht', hnodes''⟩ := appendAll_of_children hn hnt [] ht hc rfl hnodes'
    rw [if_pos hroot, if_pos hroot, bind_of_done hread, bind_of_done hrun]
    refine ⟨_, rfl, ?_⟩
    have hrel := Grown.release ht' hstray hnodes''
    rw [Node.handle_setChildren] at hrel
    exact hrel
  · obtain ⟨t, happend, ht', hnodes''⟩ := @Grown.append t₀ e.tree h [] [] stray c n [] ht
      (by rw [hnodes', List.append_assoc]; rfl) hn hnt
    rw [if_neg hroot, if_neg hroot, onTree_of_ok happend]
    exact ⟨t, rfl, ht', stray, hstray, by rw [hnodes'', List.append_nil]; rfl⟩

theorem find?_opened (ht : e.tree.Sound) (site : Nat) (enclosure : Enclosure) :
    (e.opened site enclosure).tree.find? e.tree.pool.take.1 =
      some (tagged e.tree.pool.take.1 enclosure.tag.toLower ("container-" ++ e.sites.label site) []) :=
  @Node.findAmong?_middle [] e.tree.nodes
    (tagged e.tree.pool.take.1 enclosure.tag.toLower ("container-" ++ e.sites.label site) [])
    (sound_tagged ht enclosure.tag _).nodup

theorem opened_writable (ht : e.tree.Sound) (site : Nat) (enclosure : Enclosure) :
    (e.opened site enclosure).Writable e.tree.pool.take.1 :=
  ⟨sound_tagged ht enclosure.tag _, rfl, _, find?_opened ht site enclosure, rfl⟩

/-- The element of a container, with what its code has added, stands in front of the tree that was there. -/
theorem nodes_of_grown_opened {ns : List Node} {events : List String} (ht : e.tree.Sound)
    (hg : Grown e.tree.pool.take.1 (e.opened site enclosure).tree e'.tree ns events) :
    ∃ stray, (∀ n ∈ stray, n.handle = .root) ∧ e'.tree.nodes = stray ++
      (tagged e.tree.pool.take.1 enclosure.tag.toLower ("container-" ++ e.sites.label site) []).extend ns events ::
        e.tree.nodes := by
  obtain ⟨stray, hstray, hnodes⟩ := hg.nodes
  refine ⟨stray, hstray, hnodes.trans (congrArg (stray ++ ·) ?_)⟩
  exact @Node.updateAmong_middle [] e.tree.nodes
    (tagged e.tree.pool.take.1 enclosure.tag.toLower ("container-" ++ e.sites.label site) [])
    _ (sound_tagged ht enclosure.tag _).nodup

/-- When the code fails, its element is released with all that it holds. -/
theorem container_of_failed {fault : Fault} {j : List Diagnostic} {ns : List Node} {events : List String}
    (ht : e.tree.Sound) (hr : e.context.code.renderable = true) (hm : e.context.mode ≠ .callable)
    (hb : body (e.opened site enclosure) = .failed fault e' j) (hf : e'.frames.tail = e.frames)
    (hg : Grown e.tree.pool.take.1 (e.opened site enclosure).tree e'.tree ns events) :
    ∃ t journal, container site enclosure body e =
        .failed fault { e' with tree := t, frames := e.frames, focus := e.focus } journal ∧
      Grown h e.tree t [] [] := by
  obtain ⟨journal, hrun⟩ := @container_eq site enclosure body e ht hr hm
  obtain ⟨stray, hstray, hnodes⟩ := nodes_of_grown_opened ht hg
  have hrel := @Grown.release e.tree e'.tree h [] [] stray _ hg.sound hstray
    (by rw [Node.updateAmong_eq_self Node.extend_nil]; exact hnodes)
  rw [hb] at hrun
  refine ⟨_, journal ++ j, hrun.trans ?_, by rwa [Node.handle_extend] at hrel⟩
  rw [← hf]
  rfl

/-- When the code ends, the container is closed: its element is appended, or what the element holds if it is a root
container. -/
theorem container_closed {j : List Diagnostic} {ns : List Node} {events : List String}
    (hw : e.Writable h) (hr : e.context.code.renderable = true) (hm : e.context.mode ≠ .callable)
    (hb : body (e.opened site enclosure) = .done () e' j) (hf : e'.frames.tail = e.frames)
    (hg : Grown e.tree.pool.take.1 (e.opened site enclosure).tree e'.tree ns events) :
    ∃ t journal, close enclosure e.tree.pool.take.1 { e' with frames := e.frames, focus := e.focus } =
        .done () { e' with tree := t, frames := e.frames, focus := e.focus } [] ∧
      container site enclosure body e =
        .done () { e' with tree := t, frames := e.frames, focus := e.focus } journal ∧
      Grown h e.tree t
        (if enclosure = .root then ns
        else
          [(tagged e.tree.pool.take.1 enclosure.tag.toLower ("container-" ++ e.sites.label site) []).extend ns events])
        [] := by
  obtain ⟨n, hn, hnt⟩ := hw.element
  obtain ⟨journal, hrun⟩ := @container_eq site enclosure body e hw.sound hr hm
  obtain ⟨stray, hstray, hnodes⟩ := nodes_of_grown_opened hw.sound hg
  obtain ⟨t, hclose, hgrown⟩ := @close_of_top enclosure { e' with frames := e.frames, focus := e.focus } h
    _ n stray e.tree hw.target hg.sound hstray hnodes (by rw [Node.isText_extend]; rfl) hn hnt
  rw [Node.handle_extend] at hclose
  rw [Node.children_extend rfl] at hgrown
  rw [hb] at hrun
  dsimp only at hrun
  rw [hf] at hrun
  refine ⟨t, journal ++ (j ++ []), hclose, hrun.trans ?_, hgrown⟩
  exact congrArg (fun o => Outcome.after journal (Outcome.after j o)) hclose

theorem container_of_done {j : List Diagnostic} {ns : List Node} {events : List String}
    (hw : e.Writable h) (hr : e.context.code.renderable = true) (hm : e.context.mode ≠ .callable)
    (hb : body (e.opened site enclosure) = .done () e' j) (hf : e'.frames.tail = e.frames)
    (hg : Grown e.tree.pool.take.1 (e.opened site enclosure).tree e'.tree ns events) :
    ∃ t journal made, container site enclosure body e =
        .done () { e' with tree := t, frames := e.frames, focus := e.focus } journal ∧
      Grown h e.tree t made [] ∧
      Node.toMarkupAll made =
        if enclosure = .root then Node.toMarkupAll ns
        else [Evaluation.element enclosure.tag.toLower ("container-" ++ e.sites.label site)
          (Node.toMarkupAll ns)] := by
  obtain ⟨t, journal, -, hrun, hgrown⟩ := container_closed hw hr hm hb hf hg
  refine ⟨t, journal, _, hrun, hgrown, ?_⟩
  split
  · rfl
  · rw [Node.toMarkupAll_cons, Node.toMarkup_extend]
    simp [tagged, Node.setChildren, Node.toMarkup, Evaluation.element]

end Container

/-! ### Conditionals -/

theorem pop_of_cons {e : Engine} {v : Value} {stack : Operands} (hs : e.stack = v :: stack) (site : Nat) :
    ∃ journal, pop site e = .done v { e with stack } journal := by
  have hpop : onStack Operands.pop e = .done v { e with stack } [] := by
    rw [onStack, hs]
    rfl
  exact ⟨_, (bind_of_done hpop).trans rfl⟩

/-- The code of a conditional runs in a frame on the same node. -/
theorem conditional_eq {e : Engine} {h : Handle} (site : Nat) (body : Action Unit)
    (htarget : e.frames.head?.map (·.target) = some h) :
    ∃ journal, conditional site body e =
      Outcome.after journal
        (match e.stack with
        | [] => .failed (.underflow .pop) { e with stack := [] } []
        | v :: stack =>
          if v.isTrue then
            (body { e with stack, frames := ⟨site, e.context.code, h, .conditional⟩ :: e.frames }).mapEngine
              fun e' => { e' with frames := e'.frames.tail }
          else .done () { e with stack } []) := by
  cases hs : e.stack with
  | nil =>
    have hpop : onStack Operands.pop e = .failed (.underflow .pop) { e with stack := [] } [] := by
      rw [onStack, hs]
      rfl
    exact ⟨[], bind_of_failed (bind_of_failed hpop)⟩
  | cons v stack =>
    obtain ⟨journal, hpop⟩ := pop_of_cons hs site
    unfold conditional
    rw [bind_of_done hpop, bind_of_done (x := label site) rfl, bind_of_done (x := log _) rfl]
    by_cases hv : v.isTrue = true
    · rw [if_pos hv, bind_of_done (target_of_head (e := { e with stack }) htarget), bind_of_done (x := get _) rfl]
      simp only [if_pos hv, Outcome.after_nil, Outcome.after_after]
      exact ⟨_, rfl⟩
    · simp only [if_neg hv, Outcome.after_after]
      exact ⟨_, rfl⟩

/-! ### Code -/

/-- Code changes only what it may, and the tree only by adding to the node that output goes to. -/
structure Grows (e e' : Engine) : Prop extends Confined e e' where
  tree : ∀ h, e.Writable h → ∃ ns events, Grown h e.tree e'.tree ns events

theorem Grows.writable {e e' : Engine} {h : Handle} (hg : Grows e e') (hw : e.Writable h) : e'.Writable h := by
  obtain ⟨ns, events, ht⟩ := hg.tree h hw
  exact hw.grown hg.frames ht

theorem keeps_grows {x : Action α} (hc : Keeps Confined x)
    (hx : ∀ e h, e.Writable h → (x e).Leaves fun e' => ∃ ns events, Grown h e.tree e'.tree ns events) :
    Keeps Grows x := by
  intro e
  have hce := hc e
  have hxe := hx e
  cases hr : x e with
  | done a e' journal =>
    rw [hr] at hce hxe
    exact ⟨hce, hxe⟩
  | failed fault e' journal =>
    rw [hr] at hce hxe
    exact ⟨hce, hxe⟩
  | tooDeep => trivial

theorem Keeps.confined {x : Action α} (hx : Keeps Grows x) : Keeps Confined x :=
  fun e => (hx e).mono fun _ h => h.toConfined

theorem quiet_grows : Quiet Grows where
  refl e := ⟨.refl e, fun h hw => ⟨[], [], .refl hw.sound h⟩⟩
  trans hab hbc := by
    refine ⟨hab.toConfined.trans hbc.toConfined, fun h hw => ?_⟩
    obtain ⟨ns, events, hab'⟩ := hab.tree h hw
    obtain ⟨ms, events', hbc'⟩ := hbc.tree h (hab.writable hw)
    exact ⟨_, _, hab'.trans hbc' hw.contains⟩
  stack hf e := ⟨stable_confined.stack hf e, fun h hw => ⟨[], [], .refl hw.sound h⟩⟩
  time e := ⟨stable_confined.time e, fun h hw => ⟨[], [], .refl hw.sound h⟩⟩
  arm e time := ⟨stable_confined.arm e time, fun h hw => ⟨[], [], .refl hw.sound h⟩⟩
  count e time := ⟨stable_confined.count e time, fun h hw => ⟨[], [], .refl hw.sound h⟩⟩
  pending e := ⟨stable_confined.pending e, fun h hw => ⟨[], [], .refl hw.sound h⟩⟩
  focus focus hg :=
    ⟨stable_confined.focus focus hg.toConfined, fun h hw => hg.tree h ⟨hw.sound, hw.target, hw.element⟩⟩
  context context hg :=
    ⟨stable_confined.context context hg.toConfined, fun h hw => hg.tree h ⟨hw.sound, hw.target, hw.element⟩⟩

theorem Adds.leaves {e : Engine} {h : Handle} {ms : List Markup} {o : Outcome Unit} (ho : Adds h e ms o) :
    o.Leaves fun e' => ∃ ns events, Grown h e.tree e'.tree ns events := by
  obtain ⟨t, ns, rfl, hg, -⟩ := ho
  exact ⟨ns, [], hg⟩

theorem container_grows (site : Nat) (enclosure : Enclosure) {body : Action Unit} (hb : Keeps Grows body) :
    Keeps Grows (container site enclosure body) := by
  refine keeps_grows (stable_confined.closed.container site enclosure hb.confined) fun e h hw => ?_
  by_cases hplain : (!e.context.code.renderable || e.context.mode = .callable) = true
  · rw [container_of_plain hplain]
    exact (hb e).mono fun _ hg => hg.tree h hw
  · simp only [Bool.or_eq_true, Bool.not_eq_true', decide_eq_true_eq, not_or, Bool.not_eq_false] at hplain
    obtain ⟨hr, hm⟩ := hplain
    have hwo := opened_writable hw.sound site enclosure
    have hbe := hb (e.opened site enclosure)
    cases hbo : body (e.opened site enclosure) with
    | done a e' j =>
      rw [hbo] at hbe
      obtain ⟨ns, events, hg⟩ := hbe.tree _ hwo
      obtain ⟨t, journal, made, hrun, hg', -⟩ := container_of_done hw hr hm hbo
        (congrArg List.tail hbe.frames) hg
      rw [hrun]
      exact ⟨made, [], hg'⟩
    | failed fault e' j =>
      rw [hbo] at hbe
      obtain ⟨ns, events, hg⟩ := hbe.tree _ hwo
      obtain ⟨t, journal, hrun, hg'⟩ := container_of_failed hw.sound hr hm hbo
        (congrArg List.tail hbe.frames) hg
      rw [hrun]
      exact ⟨[], [], hg'⟩
    | tooDeep =>
      obtain ⟨journal, hrun⟩ := @container_eq site enclosure body e hw.sound hr hm
      rw [hrun, hbo]
      trivial

theorem conditional_grows (site : Nat) {body : Action Unit} (hb : Keeps Grows body) :
    Keeps Grows (conditional site body) := by
  refine keeps_grows (stable_confined.closed.conditional site hb.confined) fun e h hw => ?_
  obtain ⟨journal, hrun⟩ := conditional_eq site body hw.target
  rw [hrun, Outcome.leaves_after]
  split
  · exact ⟨[], [], .refl hw.sound h⟩
  · next v stack hs =>
    split
    · rw [Outcome.leaves_mapEngine]
      exact (hb _).mono fun _ hg => hg.tree h ⟨hw.sound, rfl, hw.element⟩
    · exact ⟨[], [], .refl hw.sound h⟩

/-- Code of any length and depth only adds to the node that output goes to. -/
theorem closed_grows : Closed Grows where
  toQuiet := quiet_grows
  site e key := ⟨stable_confined.site e key, fun h hw => ⟨[], [], .refl hw.sound h⟩⟩
  container site enclosure _ hb := container_grows site enclosure hb
  conditional site _ hb := conditional_grows site hb
  leaf site tag := keeps_grows (stable_confined.closed.leaf site tag) fun _ _ hw => (leaf_adds hw site tag).leaves
  value site raw content :=
    keeps_grows (stable_confined.closed.value site raw content) fun _ _ hw => (value_adds hw site raw content).leaves
  listen site event handler := by
    refine keeps_grows (stable_confined.closed.listen site event handler) fun e h hw => ?_
    obtain ⟨t, journal, hrun, hg⟩ := listen_of_writable hw site event handler
    rw [hrun]
    exact ⟨[], [event], hg⟩

end Action
end Trellis
