import AtomicCss.Engine.Component

/-!
Delivering new rules to a replica.

A replica may call the engine back while a rule is delivered to it. Rules that such calls queue wait
until the call returns, and are delivered after those queued before them: only the outermost call
drains the queue, so a call from inside settles nothing.
-/

namespace AtomicCss.Engine

/-- Carries out one call; its result is not looked at. A call on a style that was never compiled
does nothing. -/
def serve (settle : Settle Engine) (engine : Engine) : Request → Engine
  | .compile node => (engine.css node).2
  | .compose parts node => match parts.mapM engine.style? with
    | some styles => (engine.cssComposed styles node).2
    | none => engine
  | .classOfStyle number selection override => match engine.style? number with
    | some style => (engine.className settle style selection override).2
    | none => engine
  | .classOf node selection override => match engine.css node with
    | (.ok style, engine) => (engine.className settle style selection override).2
    | (.error _, engine) => engine
  | .render element number props => match engine.style? number with
    | some style => (engine.renderWith settle ⟨element, style⟩ props).2
    | none => engine
  | .applyGlobal node => match engine.globalCss node with
    | .ok style => engine.apply settle style
    | .error _ => engine
  | .keyframes node => (engine.keyframes settle node).2
  | .theme name overrides => (engine.createTheme settle name overrides).2

def deliver (engine : Engine) (delivery : Delivery) (script : List (List Request)) : Engine :=
  { engine with
    replica := engine.replica.map fun replica => ⟨replica.delivered ++ [delivery], script⟩ }

/-- Delivers rules to a replica that makes no more calls. -/
def deliverAll (engine : Engine) (queue : List Delivery) : Engine :=
  queue.foldl (fun engine delivery => engine.deliver delivery [])
    { engine with sheet := { engine.sheet with pending := some [] } }

/-- Delivers queued rules, oldest first, each with the calls that the script has for it; the rest of
the script waits for later rules. -/
def drainWith (engine : Engine) : (script : List (List Request)) → Engine
  | [] => match engine.sheet.pending with
    | some queue => engine.deliverAll queue
    | none => engine
  | requests :: script => match engine.sheet.nextPending with
    | (none, _) => engine
    | (some delivery, sheet) =>
      (requests.foldl (serve id) ({ engine with sheet }.deliver delivery script)).drainWith script

/-- Delivers every queued rule, and those that the calls of the replica queue meanwhile. -/
def drain (engine : Engine) : Engine :=
  match engine.replica with
  | some replica => engine.drainWith replica.script
  | none => engine

def render (engine : Engine) (component : Component) (props : List (String × Json)) :
    Except StyleError RenderedElement × Engine :=
  engine.renderWith drain component props

/-- Carries out calls one after another; each drains the queue before it returns. -/
def run (engine : Engine) (requests : List Request) : Engine := requests.foldl (serve drain) engine

/-- The rules that a replica holds, if every delivery had a place. -/
def replicated? (engine : Engine) : Option (List String) :=
  engine.replica.bind fun replica => Delivery.replay [] replica.delivered

/-- Gives the replica the calls that it will make. -/
def withScript (engine : Engine) (script : List (List Request)) : Engine :=
  { engine with replica := engine.replica.map fun replica => { replica with script } }

end AtomicCss.Engine
