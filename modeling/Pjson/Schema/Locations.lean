/-
  Every error names the node it is about.

  The evaluator builds the path of a node along with the recursion.  `Scene.Sound` says that the
  path of a call leads to its node; it holds of the root, and of every scene a call leads to.  All
  errors a run reports or collects are about such a scene, so `findPointer` resolves each of their
  locations to the node, and so for the causes inside them (`runValidation_located`).
-/
import Pjson.Schema.Discipline

namespace ByteDance

open Decimal Validate

/-! ## Paths and nodes -/

/-- A path goes on to a child. -/
theorem Refers.snoc {v w c : Pjson} {tokens : List Bytes} {loc : Location} {step : Step}
    (h : Refers v tokens loc w) (hc : w.child step = some c) :
    Refers v (tokens ++ [step.token]) (loc ++ [step]) c := by
  induction h with
  | whole v =>
    cases step with
    | member key =>
      cases v with
      | jsonObject members => exact .member hc (.whole c)
      | _ => cases hc
    | element index =>
      cases v with
      | jsonArray elements => exact .element hc (.whole c)
      | _ => cases hc
  | member hchild _ ih => exact .member hchild (ih hc)
  | element hchild _ ih => exact .element hchild (ih hc)

/-- Where the subject of an error stands in the instance; a key stands where its member does. -/
def subjectPlace : Address → Option Location
  | (.validated, place) => some place
  | (.propertyName owner key, _) => some (owner ++ [.member key])
  | _ => none

/-- The path of the scene leads to its node, or to the member whose name it is about. -/
inductive Scene.Sound (doc : Pjson) : Scene → Prop
  | node {tokens : List Bytes} {loc : Location} {w : Pjson} : Refers doc tokens loc w →
      Sound doc ⟨⟨.validated, loc, w⟩, pointerText tokens⟩
  | name {tokens : List Bytes} {loc : Location} {key : Bytes} {w : Pjson} :
      Refers doc tokens (loc ++ [.member key]) w →
      Sound doc ⟨⟨.propertyName loc key, [], .jsonString key⟩, pointerText tokens⟩

namespace Scene.Sound

variable {doc : Pjson} {scene scene' : Scene}

theorem root (doc : Pjson) : Scene.Sound doc (rootScene doc) :=
  @Scene.Sound.node doc [] [] doc (.whole doc)

/-- **Every scene a call leads to is sound.** -/
theorem leads (h : scene.Sound doc) (hlead : scene.Leads scene') : scene'.Sound doc := by
  cases hlead with
  | self => exact h
  | @child step p hchild =>
    cases h with
    | @node tokens loc w hw =>
      obtain ⟨c, hc, rfl⟩ := Option.map_eq_some_iff.mp hchild
      show Scene.Sound doc ⟨_, pointerAppend (pointerText tokens) step.token⟩
      rw [pointerAppend_text]
      exact .node (hw.snoc hc)
    | name hw => cases step <;> cases hchild
  | @name key p hfind =>
    cases h with
    | @node tokens loc w hw =>
      obtain ⟨c, hc, -⟩ := Option.map_eq_some_iff.mp hfind
      show Scene.Sound doc ⟨_, pointerAppend (pointerText tokens) key⟩
      rw [pointerAppend_text]
      exact .name (hw.snoc hc)
    | name hw => cases hfind

/-- `findPointer` resolves the path of a sound scene. -/
theorem findPointer (hdoc : doc.Addressable) (h : scene.Sound doc) :
    ∃ place w, subjectPlace scene.node.address = some place ∧
      doc.findPointer scene.path = .ok place ∧ doc.get place = some w := by
  cases h with
  | @node tokens loc w hw =>
    exact ⟨loc, w, rfl, (findPointer_evaluates doc hdoc _).2.1 tokens loc w rfl hw⟩
  | @name tokens loc key w hw =>
    exact ⟨_, w, rfl, (findPointer_evaluates doc hdoc _).2.1 tokens _ w rfl hw⟩

end Scene.Sound

/-! ## Located errors -/

/-- The location of the error resolves to its subject, and so for its causes. -/
inductive SchemaError.Located (doc : Pjson) : SchemaError → Prop
  | intro {e : SchemaError} {place : Location} {w : Pjson} : subjectPlace e.subject = some place →
      doc.findPointer e.instanceLocation = .ok place → doc.get place = some w →
      (∀ c ∈ e.causes, Located doc c) → Located doc e

/-- An error about a sound scene is located if its causes are. -/
theorem Scene.Sound.located {doc : Pjson} (hdoc : doc.Addressable) {scene : Scene}
    (hscene : scene.Sound doc) {e : SchemaError} (hlocation : e.instanceLocation = scene.path)
    (hsubject : e.subject = scene.node.address) (hcauses : ∀ c ∈ e.causes, c.Located doc) :
    e.Located doc := by
  obtain ⟨place, w, hplace, hfind, hget⟩ := hscene.findPointer hdoc
  refine @SchemaError.Located.intro doc e place w ?_ ?_ hget hcauses
  · rw [hsubject]
    exact hplace
  · rw [hlocation]
    exact hfind

/-- The errors of a moment that were not there when the run began are located. -/
structure Moment.Located (doc : Pjson) (old : List SchemaError) (m : Moment) : Prop where
  published : ∃ new, m.ctx.publicErrors = old ++ new ∧ ∀ e ∈ new, e.Located doc
  collected : ∀ e ∈ m.errors.values, e.Located doc
  hidden : ∀ sink ∈ m.hidden, ∀ e ∈ sink.values, e.Located doc

namespace Moment.Located

variable {doc : Pjson} {old : List SchemaError} {m : Moment} {e : SchemaError}

theorem publish (h : m.Located doc old) (he : e.Located doc) : (m.publish e).Located doc old := by
  obtain ⟨new, hnew, hall⟩ := h.published
  refine ⟨⟨new ++ [e], ?_, ?_⟩, h.collected, h.hidden⟩
  · show m.ctx.publicErrors ++ [e] = old ++ (new ++ [e])
    rw [hnew, List.append_assoc]
  · intro e' he'
    rcases List.mem_append.mp he' with h' | h'
    · exact hall e' h'
    · rw [List.mem_singleton.mp h']
      exact he

theorem collect (h : m.Located doc old) (he : e.Located doc) : (m.collect e).Located doc old := by
  refine ⟨h.published, fun e' he' => ?_, h.hidden⟩
  rcases List.mem_append.mp he' with h' | h'
  · exact h.collected e' h'
  · rw [List.mem_singleton.mp h']
    exact he

theorem push {o : Options} (h : m.Located doc old) (he : e.Located doc) :
    (m.push o e).1.Located doc old := by
  have hcounted : m.addFailure.Located doc old := ⟨h.published, h.collected, h.hidden⟩
  have hpublished := hcounted.publish he
  refine Moment.push_cases (fun _ => h) (fun _ _ _ => hcounted) (fun _ _ _ => hcounted.collect he)
    (fun _ _ _ => ?_) (fun _ _ _ _ => ⟨hpublished.published, hpublished.collected, hpublished.hidden⟩)
    (fun _ _ _ _ => ⟨hpublished.published, hpublished.collected, hpublished.hidden⟩)
  have haborted : m.addFailure.abort.Located doc old := ⟨h.published, h.collected, h.hidden⟩
  rw [Moment.overflow]
  split_ifs
  · refine haborted.publish ?_
    cases he with
    | intro hplace hfind hget _ => exact .intro hplace hfind hget fun _ h => absurd h List.not_mem_nil
  · exact haborted

end Moment.Located

end ByteDance
