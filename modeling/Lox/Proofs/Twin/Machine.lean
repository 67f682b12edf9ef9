import Lox.Proofs.Machine.Layout
import Lox.Proofs.Twin.Code

/-!
# Twin machines

Two machines are twins if they went the same way with twin code. They have the same frames and objects
under the same numbers, and what is bound or stored on one side is bound or stored on the other: plain
data is equal, and functions are twins in the scopes of the frame in which they were made. Frames are
labelled with what has become of the names in them.

A function of the host sees values, but not the code in them. It is *blind* if it cannot tell values
apart that differ in their code alone, and then it answers twins with twins.
-/

namespace Lox

/-! ## Values that differ in their code -/

/-- What functions, and what methods of classes, may become. -/
structure CodeRelation where
  function : Closure → Closure → Prop
  method : Closure → Closure → Prop

namespace CodeRelation

/-- Name and number of parameters stay what they are. -/
structure Keeps (R : CodeRelation) : Prop where
  function : ∀ c c', R.function c c' →
    c'.declaration.name.lexeme = c.declaration.name.lexeme ∧ c'.arity = c.arity
  method : ∀ c c', R.method c c' →
    c'.declaration.name.lexeme = c.declaration.name.lexeme ∧ c'.arity = c.arity

/-- More may become of functions and methods. -/
structure Within (R R' : CodeRelation) : Prop where
  function : ∀ c c', R.function c c' → R'.function c c'
  method : ∀ c c', R.method c c' → R'.method c c'

end CodeRelation

/-- Classes that differ in the code of their methods. -/
structure Class.Like (R : CodeRelation) (c c' : Class) : Prop where
  identity : c'.identity = c.identity
  name : c'.name = c.name
  methods : ∀ name, Option.Rel R.method (c.methods.find? name) (c'.methods.find? name)

/-- Values that differ in their code. -/
inductive Value.Like (R : CodeRelation) : Value → Value → Prop
  | nil : Like R .nil .nil
  | boolean (b : Bool) : Like R (.boolean b) (.boolean b)
  | number (x : Float) : Like R (.number x) (.number x)
  | string (s : String) : Like R (.string s) (.string s)
  | function (identity : Identity) {c c' : Closure} : R.function c c' →
      Like R (.function ⟨identity, c⟩) (.function ⟨identity, c'⟩)
  | host (f : HostFunction) : Like R (.host f) (.host f)
  | cls {c c' : Class} : c.Like R c' → Like R (.cls c) (.cls c')
  | object (id : ObjectId) : Like R (.object id) (.object id)
  | weakObject (id : ObjectId) : Like R (.weakObject id) (.weakObject id)

/-- Objects that differ in the code of what they hold. -/
structure Object.Like (R : CodeRelation) (o o' : Object) : Prop where
  cls : o.cls.Like R o'.cls
  fields : ∀ name, Option.Rel (Value.Like R) (o.fields.find? name) (o'.fields.find? name)

/-- Heaps that differ in the code of what their objects hold. -/
structure Heap.Like (R : CodeRelation) (heap heap' : Heap) : Prop where
  nextId : heap'.nextId = heap.nextId
  objects : ∀ id, Option.Rel (Object.Like R) (heap.object? id) (heap'.object? id)

/-- Answers of a function of the host that differ in the code of the value. -/
inductive Answer.Like (R : CodeRelation) : Except String Value → Except String Value → Prop
  | ok {v v' : Value} : v.Like R v' → Like R (.ok v) (.ok v')
  | error (message : String) : Like R (.error message) (.error message)

/-- An action that does not see code: where heaps and arguments differ in their code, so does the
answer, and the world becomes the same. -/
def HostAction.Blind (action : HostAction) : Prop :=
  ∀ R : CodeRelation, R.Keeps → ∀ heap heap' world arguments arguments', heap.Like R heap' →
    List.Forall₂ (Value.Like R) arguments arguments' →
    (action heap' world arguments').2 = (action heap world arguments).2 ∧
      Answer.Like R (action heap world arguments).1 (action heap' world arguments').1

section

variable {R R' : CodeRelation}

theorem rel_mono {α β : Type} {r r' : α → β → Prop} (h : ∀ a b, r a b → r' a b)
    {a : Option α} {b : Option β} (hab : Option.Rel r a b) : Option.Rel r' a b := by
  cases hab with
  | none => exact .none
  | some hab => exact .some (h _ _ hab)

theorem Class.Like.mono (h : R.Within R') {c c' : Class} (hc : c.Like R c') : c.Like R' c' :=
  ⟨hc.identity, hc.name, fun name => rel_mono h.method (hc.methods name)⟩

theorem Value.Like.mono (h : R.Within R') {v v' : Value} (hv : v.Like R v') : v.Like R' v' := by
  cases hv with
  | function identity hc => exact .function identity (h.function _ _ hc)
  | cls hc => exact .cls (hc.mono h)
  | _ => constructor

theorem Object.Like.mono (h : R.Within R') {o o' : Object} (ho : o.Like R o') : o.Like R' o' :=
  ⟨ho.cls.mono h, fun name => rel_mono (fun _ _ hv => hv.mono h) (ho.fields name)⟩

theorem Heap.Like.mono (h : R.Within R') {heap heap' : Heap} (hheap : heap.Like R heap') :
    heap.Like R' heap' :=
  ⟨hheap.nextId, fun id => rel_mono (fun _ _ ho => ho.mono h) (hheap.objects id)⟩

namespace Value.Like

variable {v v' w w' : Value}

theorem strong (h : v.Like R v') : v.strong.Like R v'.strong := by
  cases h with
  | function identity hc => exact .function identity hc
  | cls hc => exact .cls hc
  | _ => constructor

theorem objectId? (h : v.Like R v') : v'.objectId? = v.objectId? := by
  cases h <;> rfl

theorem isTruthy (h : v.Like R v') : v'.isTruthy = v.isTruthy := by
  cases h <;> rfl

/-- Programs cannot tell by their equality that code differs. -/
theorem equals (h : v.Like R v') (h' : w.Like R w') : v'.equals w' = v.equals w := by
  cases h with
  | cls hc =>
    cases h' with
    | cls hd => simp only [Value.equals, hc.identity, hd.identity]
    | _ => rfl
  | _ => cases h' <;> rfl

theorem arity? (hR : R.Keeps) (h : v.Like R v') : v'.arity? = v.arity? := by
  cases h with
  | function identity hc => exact congrArg some (hR.function _ _ hc).2
  | @cls c c' hc =>
    have init := hc.methods initializerName
    simp only [Value.arity?, Class.arity, Class.initializer?]
    generalize c.methods.find? initializerName = method at init ⊢
    generalize c'.methods.find? initializerName = method' at init ⊢
    cases init with
    | none => rfl
    | some hmethod => exact congrArg some (hR.method _ _ hmethod).2
  | _ => rfl

/-- Nor can they print it. -/
theorem text (hR : R.Keeps) {heap heap' : Heap} (hheap : heap.Like R heap') (h : v.Like R v') :
    v'.text heap' = v.text heap := by
  have object (id : ObjectId) :
      ((heap'.object? id).map (·.cls.name)).getD "" =
        ((heap.object? id).map (·.cls.name)).getD "" := by
    have object := hheap.objects id
    generalize heap.object? id = o at object ⊢
    generalize heap'.object? id = o' at object ⊢
    cases object with
    | none => rfl
    | some ho => exact ho.cls.name
  cases h with
  | function identity hc =>
    simp only [Value.text, Function.name, (hR.function _ _ hc).1]
  | cls hc => simp only [Value.text, hc.name]
  | object id | weakObject id => simp only [Value.text, object id]
  | _ => rfl

end Value.Like

theorem Heap.Like.field? {heap heap' : Heap} (h : heap.Like R heap') (id : ObjectId) (name : String) :
    Option.Rel (Value.Like R) (heap.field? id name) (heap'.field? id name) := by
  have object := h.objects id
  simp only [Heap.field?]
  generalize heap.object? id = o at object ⊢
  generalize heap'.object? id = o' at object ⊢
  cases object with
  | none => exact .none
  | some ho => exact ho.fields name

theorem Heap.Like.method? {heap heap' : Heap} (h : heap.Like R heap') (id : ObjectId)
    (name : String) : Option.Rel R.method (heap.method? id name) (heap'.method? id name) := by
  have object := h.objects id
  simp only [Heap.method?]
  generalize heap.object? id = o at object ⊢
  generalize heap'.object? id = o' at object ⊢
  cases object with
  | none => exact .none
  | some ho => exact ho.cls.methods name

/-- Names are bound to the one on one side, and what has become of them to the other on the other. -/
theorem find?_insert_like {α : Type} {r : α → α → Prop} (ρ : Renaming) {bindings bindings' : Bindings α}
    (h : ∀ name, Option.Rel r (bindings.find? name) (bindings'.find? (ρ.names name)))
    (name : String) {a a' : α} (ha : r a a') (key : String) :
    Option.Rel r ((bindings.insert name a).find? key)
      ((bindings'.insert (ρ.names name) a').find? (ρ.names key)) := by
  rw [Bindings.find?_insert, Bindings.find?_insert]
  simp only [ρ.names.injective.eq_iff]
  split
  · exact .some ha
  · exact h key

theorem Heap.Like.setField {heap heap' : Heap} (h : heap.Like R heap') (id : ObjectId)
    (name : String) {v v' : Value} (hv : v.Like R v') :
    (heap.setField id name v).Like R (heap'.setField id name v') := by
  refine ⟨?_, fun other => ?_⟩
  · simpa [Heap.setField, Heap.nextId] using h.nextId
  · rw [Heap.object?_setField, Heap.object?_setField]
    have object := h.objects other
    split
    · generalize heap.object? other = o at object ⊢
      generalize heap'.object? other = o' at object ⊢
      cases object with
      | none => exact .none
      | some ho => exact .some ⟨ho.cls, find?_insert_like .same ho.fields name hv⟩
    · exact object

theorem Heap.Like.push {heap heap' : Heap} (h : heap.Like R heap') {c c' : Class}
    (hc : c.Like R c') : (heap.push c).Like R (heap'.push c') := by
  refine ⟨?_, fun id => ?_⟩
  · simpa [Heap.push, Heap.nextId] using h.nextId
  · rw [Heap.object?_push, Heap.object?_push, h.nextId]
    split
    · exact .some ⟨hc, fun _ => .none⟩
    · exact h.objects id

end

/-! ## Pairs of machines -/

/-- Two machines, and what has become of the names in their frames. -/
structure Pair where
  labels : FrameId → Renaming
  left : Machine
  right : Machine

/-- What is written behind a text on the left is written to an empty sink on the right. -/
structure Sink.Behind (before : String) (sink sink' : Sink) : Prop where
  text : sink.text = before ++ sink'.text
  limit : sink'.limit = sink.limit.map (· - before.toList.count '\n')

theorem Sink.Behind.isFull {before : String} {sink sink' : Sink} (h : sink.Behind before sink') :
    sink'.isFull = sink.isFull := by
  unfold Sink.isFull
  rw [h.limit, h.text]
  cases sink.limit with
  | none => rfl
  | some limit => simp [Nat.add_comm]

theorem Sink.Behind.append {before : String} {sink sink' : Sink} (h : sink.Behind before sink')
    (text : String) : (sink.append text).Behind before (sink'.append text) :=
  ⟨by simp only [Sink.append, h.text, String.append_assoc], h.limit⟩

namespace Pair

/-- The frames from one outwards are those of the scopes. -/
inductive Around (σ : Pair) : FrameId → List Renaming → Prop
  | global : Around σ Frames.globalId []
  | scope {id outer : FrameId} {scopes : List Renaming} : σ.left.frames.enclosing? id = some outer →
      Around σ outer scopes → Around σ id (σ.labels id :: scopes)

/-- Functions made in the same frame from twins, inside of some more scopes. -/
structure MadeFrom (tie : Tie) (σ : Pair) (opened : List Renaming) (c c' : Closure) : Prop where
  frame : c'.frame = c.frame
  isInitializer : c'.isInitializer = c.isInitializer
  code : ∃ scopes, σ.Around c.frame scopes ∧
    c.declaration.Twin tie (opened ++ scopes) c'.declaration

/-- What functions and methods may become in twin machines. -/
def codes (tie : Tie) (σ : Pair) : CodeRelation where
  function := σ.MadeFrom tie []
  method := σ.MadeFrom tie [.same]

theorem MadeFrom.keeps {tie : Tie} {σ : Pair} {opened : List Renaming} {c c' : Closure}
    (h : σ.MadeFrom tie opened c c') :
    c'.declaration.name.lexeme = c.declaration.name.lexeme ∧ c'.arity = c.arity := by
  obtain ⟨scopes, -, htwin⟩ := h.code
  unfold Closure.arity
  generalize c.declaration = f at htwin ⊢
  generalize c'.declaration = f' at htwin ⊢
  cases htwin with
  | intro ρ hname hparams _ => exact ⟨hname.lexeme, hparams.length_eq.symm⟩

theorem codes_keeps (tie : Tie) (σ : Pair) : (σ.codes tie).Keeps :=
  ⟨fun _ _ h => h.keeps, fun _ _ h => h.keeps⟩

/-- The two machines are twins. -/
structure Twins (tie : Tie) (σ : Pair) : Prop where
  nextId_pos : Frames.globalId < σ.left.frames.nextId
  nextId : σ.right.frames.nextId = σ.left.frames.nextId
  enclosing : ∀ id, σ.right.frames.enclosing? id = σ.left.frames.enclosing? id
  global : σ.labels Frames.globalId = .same
  held : ∀ id name, Option.Rel (Value.Like (σ.codes tie)) (σ.left.frames.local? id name)
    (σ.right.frames.local? id ((σ.labels id).names name))
  receiver : ∀ v, σ.left.frames.local? Frames.globalId receiverName = some v → v.objectId? = none
  heap : σ.left.heap.Like (σ.codes tie) σ.right.heap
  current : σ.right.current = σ.left.current
  distances : ∀ id, σ.left.distances[id]? = tie.left.distance? id
  distances' : ∀ id, σ.right.distances[id]? = tie.right.distance? id
  actions : σ.right.actions = σ.left.actions
  blind : ∀ action ∈ σ.left.actions, action.Blind
  sink : σ.left.sink.Behind tie.before σ.right.sink
  world : σ.right.world = σ.left.world
  nextIdentity : σ.right.nextIdentity = σ.left.nextIdentity

/-! ## Growth -/

/-- Frames are added, and keep their labels and what encloses them. -/
structure Grows (σ σ' : Pair) : Prop where
  nextId_le : σ.left.frames.nextId ≤ σ'.left.frames.nextId
  labels_eq : ∀ id < σ.left.frames.nextId, σ'.labels id = σ.labels id
  enclosing_eq : ∀ id < σ.left.frames.nextId,
    σ'.left.frames.enclosing? id = σ.left.frames.enclosing? id

namespace Grows

variable {σ σ' σ'' : Pair}

theorem of_frames_eq (hframes : σ'.left.frames = σ.left.frames) (hlabels : σ'.labels = σ.labels) :
    σ.Grows σ' :=
  ⟨Nat.le_of_eq (by rw [hframes]), fun _ _ => by rw [hlabels], fun _ _ => by rw [hframes]⟩

theorem refl (σ : Pair) : σ.Grows σ := of_frames_eq rfl rfl

theorem trans (h : σ.Grows σ') (h' : σ'.Grows σ'') : σ.Grows σ'' where
  nextId_le := Nat.le_trans h.nextId_le h'.nextId_le
  labels_eq id hid :=
    (h'.labels_eq id (Nat.lt_of_lt_of_le hid h.nextId_le)).trans (h.labels_eq id hid)
  enclosing_eq id hid :=
    (h'.enclosing_eq id (Nat.lt_of_lt_of_le hid h.nextId_le)).trans (h.enclosing_eq id hid)

theorem around (h : σ.Grows σ') {id : FrameId} {scopes : List Renaming} (ha : σ.Around id scopes) :
    σ'.Around id scopes := by
  induction ha with
  | global => exact .global
  | scope henclosing _ ih =>
    have hlt := σ.left.frames.lt_nextId_of_enclosing? henclosing
    rw [← h.labels_eq _ hlt]
    exact .scope ((h.enclosing_eq _ hlt).trans henclosing) ih

theorem madeFrom (h : σ.Grows σ') {tie : Tie} {opened : List Renaming} {c c' : Closure}
    (hc : σ.MadeFrom tie opened c c') : σ'.MadeFrom tie opened c c' := by
  obtain ⟨scopes, hscopes, htwin⟩ := hc.code
  exact ⟨hc.frame, hc.isInitializer, scopes, h.around hscopes, htwin⟩

/-- What was a twin once always is. -/
theorem codes (h : σ.Grows σ') (tie : Tie) : (σ.codes tie).Within (σ'.codes tie) :=
  ⟨fun _ _ hc => h.madeFrom hc, fun _ _ hc => h.madeFrom hc⟩

end Grows

/-! ## What the parts of twins may become -/

section

variable {tie : Tie} {σ σ' : Pair}

theorem Twins.frame? (h : σ.Twins tie) (id : FrameId) :
    (σ.right.frames.frame? id).isSome = (σ.left.frames.frame? id).isSome := by
  rw [Bool.eq_iff_iff, Frames.isSome_frame?, Frames.isSome_frame?, h.nextId]

theorem Twins.local?_global (h : σ.Twins tie) (name : String) :
    Option.Rel (Value.Like (σ.codes tie)) (σ.left.frames.local? Frames.globalId name)
      (σ.right.frames.local? Frames.globalId name) := by
  have held := h.held Frames.globalId name
  rwa [h.global] at held

/-- The pair with a name bound in a frame. -/
def define (σ : Pair) (id : FrameId) (name name' : String) (v v' : Value) : Pair where
  labels := σ.labels
  left := { σ.left with frames := σ.left.frames.define id name v }
  right := { σ.right with frames := σ.right.frames.define id name' v' }

theorem Grows.define (σ : Pair) (id : FrameId) (name name' : String) (v v' : Value) :
    σ.Grows (σ.define id name name' v v') where
  nextId_le := Nat.le_of_eq (σ.left.frames.nextId_define id name v).symm
  labels_eq _ _ := rfl
  enclosing_eq other _ := σ.left.frames.enclosing?_define id other name v

/-- Twins may be bound to a name on the one side, and to what has become of it on the other, but no
object to the name of the receiver. -/
theorem Twins.define (h : σ.Twins tie) {id : FrameId} {name name' : String} {v v' : Value}
    (hv : v.Like (σ.codes tie) v') (hname' : name' = (σ.labels id).names name)
    (hname : name = receiverName → v.objectId? = none) : (σ.define id name name' v v').Twins tie := by
  have grows := (Grows.define σ id name name' v v').codes tie
  subst hname'
  refine ⟨?_, ?_, ?_, h.global, ?_, ?_, h.heap.mono grows, h.current, h.distances, h.distances',
    h.actions, h.blind, h.sink, h.world, h.nextIdentity⟩
  · simpa [Pair.define] using h.nextId_pos
  · simpa [Pair.define] using h.nextId
  · simpa [Pair.define] using h.enclosing
  · intro other key
    simp only [Pair.define, Frames.local?_define, h.frame?]
    by_cases hsame : id = other ∧ name = key ∧ (σ.left.frames.frame? id).isSome
    · obtain ⟨rfl, rfl, hframe⟩ := hsame
      rw [if_pos ⟨rfl, rfl, hframe⟩, if_pos ⟨rfl, rfl, hframe⟩]
      exact .some (hv.mono grows)
    · have hother : ¬(id = other ∧ (σ.labels id).names name = (σ.labels other).names key ∧
          (σ.left.frames.frame? id).isSome) := by
        rintro ⟨rfl, hkey, hframe⟩
        exact hsame ⟨rfl, (σ.labels id).names.injective hkey, hframe⟩
      rw [if_neg hsame, if_neg hother]
      exact rel_mono (fun _ _ hv => hv.mono grows) (h.held other key)
  · intro kept hkept
    simp only [Pair.define, Frames.local?_define] at hkept
    split at hkept
    · next hsame =>
      injection hkept with hkept
      exact hkept ▸ hname hsame.2.1
    · exact h.receiver kept hkept

/-- The pair with a new frame. -/
def push (σ : Pair) (ρ : Renaming) (bindings bindings' : Bindings Value)
    (enclosing : Option FrameId) : Pair where
  labels id := if id = σ.left.frames.nextId then ρ else σ.labels id
  left := { σ.left with frames := σ.left.frames.push bindings enclosing }
  right := { σ.right with frames := σ.right.frames.push bindings' enclosing }

theorem Grows.push (σ : Pair) (ρ : Renaming) (bindings bindings' : Bindings Value)
    (enclosing : Option FrameId) : σ.Grows (σ.push ρ bindings bindings' enclosing) where
  nextId_le := by simp [Pair.push]
  labels_eq id hid := if_neg (Nat.ne_of_lt hid)
  enclosing_eq id hid := by
    show Frames.enclosing? (Frames.push ..) id = _
    rw [Frames.enclosing?_push, if_neg (Nat.ne_of_lt hid)]

theorem Twins.push (h : σ.Twins tie) (ρ : Renaming) {bindings bindings' : Bindings Value}
    (hbindings : ∀ name, Option.Rel (Value.Like (σ.codes tie)) (bindings.find? name)
      (bindings'.find? (ρ.names name))) (enclosing : Option FrameId) :
    (σ.push ρ bindings bindings' enclosing).Twins tie := by
  have grows := (Grows.push σ ρ bindings bindings' enclosing).codes tie
  have hpos := Nat.ne_of_lt h.nextId_pos
  refine ⟨?_, ?_, ?_, ?_, ?_, ?_, h.heap.mono grows, h.current, h.distances, h.distances',
    h.actions, h.blind, h.sink, h.world, h.nextIdentity⟩
  · exact Nat.lt_of_lt_of_le h.nextId_pos (Grows.push σ ρ bindings bindings' enclosing).nextId_le
  · simpa [Pair.push] using h.nextId
  · intro id
    simp only [Pair.push, Frames.enclosing?_push, h.nextId, h.enclosing]
  · simp only [Pair.push, if_neg hpos, h.global]
  · intro id name
    simp only [Pair.push, Frames.local?_push, h.nextId]
    split
    · exact rel_mono (fun _ _ hv => hv.mono grows) (hbindings name)
    · exact rel_mono (fun _ _ hv => hv.mono grows) (h.held id name)
  · intro v hv
    simp only [Pair.push, Frames.local?_push, if_neg hpos] at hv
    exact h.receiver v hv

/-- Around a new frame are its own scope and those of the frame that encloses it. -/
theorem Around.push {outer : FrameId} {scopes : List Renaming} (h : σ.Around outer scopes)
    (ρ : Renaming) (bindings bindings' : Bindings Value) :
    (σ.push ρ bindings bindings' (some outer)).Around σ.left.frames.nextId (ρ :: scopes) := by
  have label : (σ.push ρ bindings bindings' (some outer)).labels σ.left.frames.nextId = ρ :=
    if_pos rfl
  have inside : (σ.push ρ bindings bindings' (some outer)).Around σ.left.frames.nextId
      ((σ.push ρ bindings bindings' (some outer)).labels σ.left.frames.nextId :: scopes) := by
    refine .scope ?_ ((Grows.push σ ρ bindings bindings' (some outer)).around h)
    show Frames.enclosing? (Frames.push ..) _ = _
    rw [Frames.enclosing?_push, if_pos rfl]
  rwa [label] at inside

theorem MadeFrom.extend {tie' : Tie} (h : tie.Extends tie') (hgrows : σ.Grows σ')
    {opened : List Renaming} {c c' : Closure} (hc : σ.MadeFrom tie opened c c') :
    σ'.MadeFrom tie' opened c c' := by
  obtain ⟨scopes, hscopes, htwin⟩ := hc.code
  exact ⟨hc.frame, hc.isInitializer, scopes, hgrows.around hscopes, htwin.mono h⟩

/-- Twins stay twins when there is more code, with its distances. -/
theorem Twins.extend {tie' : Tie} (h : σ.Twins tie) (hextends : tie.Extends tie')
    (hlabels : σ'.labels = σ.labels) (hframes : σ'.left.frames = σ.left.frames)
    (hframes' : σ'.right.frames = σ.right.frames) (hheap : σ'.left.heap = σ.left.heap)
    (hheap' : σ'.right.heap = σ.right.heap) (hcurrent : σ'.right.current = σ'.left.current)
    (hdistances : ∀ id, σ'.left.distances[id]? = tie'.left.distance? id)
    (hdistances' : ∀ id, σ'.right.distances[id]? = tie'.right.distance? id)
    (hactions : σ'.right.actions = σ'.left.actions)
    (hblind : ∀ action ∈ σ'.left.actions, action.Blind)
    (hsink : σ'.left.sink.Behind tie'.before σ'.right.sink)
    (hworld : σ'.right.world = σ'.left.world)
    (hidentity : σ'.right.nextIdentity = σ'.left.nextIdentity) : σ'.Twins tie' := by
  have grows : σ.Grows σ' := .of_frames_eq hframes hlabels
  have codes : (σ.codes tie).Within (σ'.codes tie') :=
    ⟨fun _ _ hc => hc.extend hextends grows, fun _ _ hc => hc.extend hextends grows⟩
  refine ⟨?_, ?_, ?_, ?_, ?_, ?_, ?_, hcurrent, hdistances, hdistances', hactions, hblind, hsink,
    hworld, hidentity⟩
  · exact hframes ▸ h.nextId_pos
  · simpa only [hframes, hframes'] using h.nextId
  · simpa only [hframes, hframes'] using h.enclosing
  · exact hlabels ▸ h.global
  · intro id name
    simp only [hframes, hframes', hlabels]
    exact rel_mono (fun _ _ hv => hv.mono codes) (h.held id name)
  · simpa only [hframes] using h.receiver
  · simp only [hheap, hheap']
    exact h.heap.mono codes

/-- What leaves frames and objects alone, and does the same on both sides to the rest. -/
theorem Twins.of_same (h : σ.Twins tie) {m m' : Machine} (hframes : m.frames = σ.left.frames)
    (hframes' : m'.frames = σ.right.frames) (hheap : m.heap = σ.left.heap)
    (hheap' : m'.heap = σ.right.heap) (hcurrent : m'.current = m.current)
    (hdistances : m.distances = σ.left.distances) (hdistances' : m'.distances = σ.right.distances)
    (hactions : m.actions = σ.left.actions) (hactions' : m'.actions = σ.right.actions)
    (hsink : m.sink.Behind tie.before m'.sink) (hworld : m'.world = m.world)
    (hidentity : m'.nextIdentity = m.nextIdentity) :
    σ.Grows ⟨σ.labels, m, m'⟩ ∧ Twins tie ⟨σ.labels, m, m'⟩ :=
  ⟨.of_frames_eq hframes rfl, h.extend (.refl tie) rfl hframes hframes' hheap hheap' hcurrent
    (fun id => hdistances ▸ h.distances id) (fun id => hdistances' ▸ h.distances' id)
    (hactions'.trans (h.actions.trans hactions.symm)) (hactions ▸ h.blind) hsink hworld hidentity⟩

/-- A function of the host that does not see code may be offered to both. -/
theorem Twins.offer (h : σ.Twins tie) {offered : HostOffer} (hoffered : offered.action.Blind) :
    Twins tie ⟨σ.labels, σ.left.offer offered, σ.right.offer offered⟩ := by
  have name : offered.name = (σ.labels Frames.globalId).names offered.name := by
    rw [h.global]
    rfl
  have defined := h.define (.host ⟨σ.left.actions.size, offered.name, offered.arity⟩) name fun _ => rfl
  refine defined.extend (.refl tie) rfl rfl ?_ rfl rfl h.current h.distances h.distances' ?_ ?_ h.sink
    h.world h.nextIdentity
  · simp only [Machine.offer, Pair.define, h.actions]
  · simp only [Machine.offer, h.actions]
  · intro action haction
    rcases Array.mem_push.mp haction with hold | rfl
    · exact h.blind action hold
    · exact hoffered

/-- What changes only objects may leave other twins of objects. -/
theorem Twins.of_heap (h : σ.Twins tie) {heap heap' : Heap} (hheap : heap.Like (σ.codes tie) heap') :
    σ.Grows ⟨σ.labels, { σ.left with heap := heap }, { σ.right with heap := heap' }⟩ ∧
      Twins tie ⟨σ.labels, { σ.left with heap := heap }, { σ.right with heap := heap' }⟩ := by
  have grows : σ.Grows ⟨σ.labels, { σ.left with heap := heap }, { σ.right with heap := heap' }⟩ :=
    .of_frames_eq rfl rfl
  have codes := grows.codes tie
  refine ⟨grows, h.nextId_pos, h.nextId, h.enclosing, h.global, ?_, h.receiver, hheap.mono codes,
    h.current, h.distances, h.distances', h.actions, h.blind, h.sink, h.world, h.nextIdentity⟩
  exact fun id name => rel_mono (fun _ _ hv => hv.mono codes) (h.held id name)

end

end Pair

end Lox
