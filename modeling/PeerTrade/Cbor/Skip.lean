import PeerTrade.Cbor.Item

/-!
# Passing over items

A record may hold fields that its reader does not know. They are passed over without being
understood: the reader only keeps count of how many items, and how many stop bytes, still belong
to the field. As long as no list of unannounced length stands inside another list, two counters
are enough; otherwise the open lists are kept on a stack.
-/

namespace PeerTrade.Cbor

/-- What is still to be passed over. -/
structure Outstanding where
  /-- Items that are announced. -/
  items : Nat := 1
  /-- Stop bytes that are expected. -/
  stops : Nat := 0
  /-- The open lists around them, innermost first: the items left in one of announced length, and
  none for one that runs up to a stop. -/
  levels : List (Option Nat) := []
  deriving DecidableEq, Repr

namespace Outstanding

/-- Whether both counters are used up, so that the stack decides. -/
def onStack (o : Outstanding) : Bool := o.items = 0 && o.stops = 0

/-- Whether nothing is left. -/
def finished (o : Outstanding) : Bool := o.onStack && o.levels.isEmpty

/-- A list of announced length begins. -/
def beginSized (o : Outstanding) (n : Nat) : Outstanding :=
  if o.onStack then { o with levels := some n :: o.levels } else { o with items := o.items + n }

/-- A list that runs up to a stop begins. -/
def beginUnsized (o : Outstanding) : Outstanding :=
  if o.onStack then { o with levels := none :: o.levels }
  else if o.items < 2 then { o with stops := o.stops + 1 }
  else
    { items := 0
      stops := 0
      levels := none :: some (o.items - 1) :: (List.replicate o.stops none ++ o.levels) }

/-- A stop byte ends the innermost list that waits for one. -/
def endUnsized (o : Outstanding) : Outstanding :=
  if o.onStack then
    match o.levels with
    | none :: rest => { o with levels := rest }
    | _ => o
  else { o with stops := o.stops - 1 }

/-- One item has been passed over. Lists that are used up go with it. -/
def itemDone (o : Outstanding) : Outstanding :=
  if o.onStack then
    match o.levels.dropWhile (· = some 0) with
    | some n :: rest => { o with levels := some (n - 1) :: rest }
    | levels => { o with levels }
  else { o with items := o.items - 1 }

end Outstanding

/-- Reads the parts of a byte string or text of unannounced length, up to the stop byte. -/
def chunks (check : Bytes → Reader Unit) (cls : Nat) : (fuel : Nat) → Reader Unit
  | 0 => throw .endOfInput
  | fuel + 1 => fun input =>
    match input with
    | [] => .error .endOfInput
    | b :: rest =>
      if b = stop then .ok ((), rest)
      else (do
        check (← sized cls)
        chunks check cls fuel : Reader Unit) input

/-- Passes over a byte string or text. -/
def skipString (check : Bytes → Reader Unit) (cls : Nat) : Reader Unit := fun input =>
  match input with
  | b :: rest =>
    if info b = 31 then chunks check cls (rest.length + 1) rest
    else (do check (← sized cls) : Reader Unit) input
  | [] => .error .endOfInput

/-- Accepts any bytes. -/
def anyBytes (_ : Bytes) : Reader Unit := pure ()

/-- Accepts the UTF-8 form of a text. -/
def textBytes (b : Bytes) : Reader Unit :=
  if (Bytes.toText? b).isSome then pure () else throw .utf8

/-- Passes over the head of a list or map, whose members count `weight` items each. -/
def skipSizeHead (cls weight : Nat) (o : Outstanding) : Reader Outstanding := do
  match ← sizeHead cls with
  | some n => pure (o.beginSized (n * weight)).itemDone
  | none => pure o.beginUnsized.itemDone

/-- Passes over the next head, or over the whole of a simple item. -/
def skipStep (o : Outstanding) : Reader Outstanding := fun input =>
  match input with
  | [] => .error .endOfInput
  | b :: rest =>
    if b ≤ 0x1b || 0x20 ≤ b && b ≤ 0x3b || 0xe0 ≤ b && b ≤ 0xfb then
      (argument (info b) *> pure o.itemDone : Reader Outstanding) rest
    else if major b = 2 then (skipString anyBytes 2 *> pure o.itemDone : Reader Outstanding) input
    else if major b = 3 then (skipString textBytes 3 *> pure o.itemDone : Reader Outstanding) input
    else if major b = 4 then skipSizeHead 4 1 o input
    else if major b = 5 then skipSizeHead 5 2 o input
    else if 0xc0 ≤ b && b ≤ 0xdb then (argument (info b) *> pure o : Reader Outstanding) rest
    else if b = stop then .ok (o.endUnsized.itemDone, rest)
    else .error .typeMismatch

/-- Passes over what is outstanding. Each step takes at least one byte, so that the fuel of one
more than the length of the input never runs out. -/
def skipAll : (fuel : Nat) → Outstanding → Reader Unit
  | 0, _ => throw .endOfInput
  | fuel + 1, o => do
    if o.finished then pure () else skipAll fuel (← skipStep o)

/-- Passes over one item. -/
def skip : Reader Unit := fun input => skipAll (input.length + 2) {} input

end PeerTrade.Cbor
