import TreeDelta.Value.Basic
import TreeDelta.Text.Digits
/-!
# Command line options

A program's `Grammar` lists its switches and the names of its positional arguments. A switch
may be written in full, by any beginning of a long name that no other name shares, with its
argument behind an equals sign or as the next word, and short ones together with their
argument or with each other. Everything behind two dashes is positional. Two dashes joined to
a switch as its argument are taken away, and the switch holds an empty list.

`Grammar.parse` refuses ambiguous words at once and then goes through the words from left to
right. The first switch that stops the program or is used wrongly decides; otherwise all words
must have found their place.
-/

namespace TreeDelta

/-- What a switch can make the program show in place of running. -/
inductive Stop where
  | help | version | settings
deriving DecidableEq, Repr

inductive Effect where
  /-- Stores its argument. -/
  | text (dest : String)
  /-- Stores its argument, a whole number. -/
  | number (dest : String)
  /-- Stores its argument, one of a few words. -/
  | choice (dest : String) (choices : List Text)
  /-- Stores a truth value. -/
  | flag (dest : String) (value : Bool)
  | stop (s : Stop)
deriving DecidableEq, Repr

def Effect.takesArgument : Effect → Bool
  | text _ | number _ | choice _ _ => true
  | flag _ _ | stop _ => false

structure Switch where
  names : List Text
  effect : Effect
deriving DecidableEq, Repr

structure Grammar where
  switches : List Switch
  positionals : List Text

inductive Parsed where
  /-- The program is used wrongly. -/
  | misuse
  /-- A switch holds an empty list where it needs one of its words. -/
  | wordless
  | stop (s : Stop)
  /-- The values given, the latest first, those that stand in for the others, and the
  positional arguments in order. Two dashes that are an argument by themselves have no
  text. -/
  | run (given defaults : List (String × Value)) (arguments : List (Option Text))

inductive Word where
  | argument (text : Text)
  /-- The two dashes behind which everything is positional. -/
  | dashes
  /-- Switches, all but the last of which take no argument, and what stands behind an equals
  sign or right behind a short name. -/
  | switches (before : List Switch) (last : Switch) (joined : Option Text)
  /-- It looks like a switch, but there is none of that name. -/
  | unknown
  /-- It joins something to a switch that is neither its argument nor another switch. -/
  | wrong
  /-- It abbreviates several names. -/
  | ambiguous
deriving DecidableEq

namespace Grammar

def find? (g : Grammar) (name : Text) : Option Switch :=
  g.switches.find? fun s => name ∈ s.names

/-- All names that start with a text, with their switches. -/
def matching (g : Grammar) (start : Text) : List (Text × Switch) :=
  g.switches.flatMap fun s => (s.names.filter (Text.startsWith · start)).map fun name => (name, s)

def splitEquals (word : Text) : Option (Text × Text) :=
  match word.span (· ≠ .char '=') with
  | (before, _ :: behind) => some (before, behind)
  | _ => none

/-- A text without the line feed at its end, if there is one. -/
def withoutLineFeed (word : Text) : Text :=
  if word.getLast? = some (.char '\n') then word.dropLast else word

/-- A negative number, which is an argument. A line feed may follow it. -/
def isNegativeNumber (word : Text) : Bool :=
  match withoutLineFeed word with
  | .char '-' :: rest =>
    let isDigit (s : Sign) : Bool := (Text.digitValue? s).isSome
    match rest.span isDigit with
    | (whole, []) => !whole.isEmpty
    | (_, .char '.' :: fraction) => !fraction.isEmpty && fraction.all isDigit
    | _ => false
  | _ => false

/-- A word that looks like a switch without being one. -/
def stray (word : Text) : Word :=
  if isNegativeNumber word || .char ' ' ∈ word then .argument word else .unknown

/-- A short switch with the letters written right behind it: its argument, or more short
switches. -/
def cluster (g : Grammar) (before : List Switch) (s : Switch) : Text → Word
  | [] => .switches before s none
  | c :: rest =>
    if s.effect.takesArgument then .switches before s (some (c :: rest))
    else match g.find? [.char '-', c] with
      | none => .wrong
      | some next => cluster g (before ++ [s]) next rest

/-- A switch of a name with the text behind its equals sign. If it takes no argument and is a
short one, the text can still be more short switches. -/
def joined (g : Grammar) (name : Text) (s : Switch) (text : Text) : Word :=
  if s.effect.takesArgument then .switches [] s (some text)
  else if text = [] ∨ name.startsWith "--" then .wrong
  else cluster g [] s text

/-- A word that starts with two dashes and is no full name. -/
def abbreviated (g : Grammar) (word : Text) : Word :=
  let (start, behind) := match splitEquals word with
    | some (start, behind) => (start, some behind)
    | none => (word, none)
  match g.matching start with
  | [] => stray word
  | [(_, s)] =>
    match behind with
    | none => .switches [] s none
    | some text => joined g start s text
  | _ => .ambiguous

/-- A word that starts with one dash and is no full name. -/
def clustered (g : Grammar) (word : Text) : Word :=
  match word with
  | dash :: c :: rest =>
    match g.find? [dash, c] with
    | some s => cluster g [] s rest
    | none => stray word
  | _ => .argument word

def classify (g : Grammar) (word : Text) : Word :=
  match word with
  | .char '-' :: _ :: _ =>
    if word = "--" then .dashes
    else match g.find? word with
      | some s => .switches [] s none
      | none =>
        match (splitEquals word).bind fun (name, text) => (g.find? name).map (name, ·, text) with
        | some (name, s, text) => joined g name s text
        | none =>
          if word.startsWith "--" then abbreviated g word else clustered g word
  | _ => .argument word

def classifyAll (g : Grammar) : List Text → List Word
  | [] => []
  | word :: rest =>
    match classify g word with
    | .dashes => .dashes :: rest.map .argument
    | w => w :: classifyAll g rest

end Grammar

/-- What a switch comes to with its argument: stored values, or the end. -/
def Effect.apply (effect : Effect) (argument : Text) : Except Parsed (List (String × Value)) :=
  match effect with
  | text dest => .ok [(dest, .str argument)]
  | number dest =>
    match Text.readInt? argument with
    | some i => .ok [(dest, .int i)]
    | none => .error .misuse
  | choice dest choices =>
    if argument ∈ choices then .ok [(dest, .str argument)] else .error .misuse
  | flag dest value => .ok [(dest, .bool value)]
  | stop s => .error (.stop s)

/-- What a switch comes to with an argument that is joined to it. -/
def Effect.applyJoined (effect : Effect) (argument : Text) :
    Except Parsed (List (String × Value)) :=
  match effect with
  | text dest | number dest =>
    if argument = "--" then .ok [(dest, .list default [])] else effect.apply argument
  | choice _ _ => if argument = "--" then .error .wordless else effect.apply argument
  | flag _ _ | stop _ => effect.apply argument

def applyFlags (stored : List (String × Value)) :
    List Switch → Except Parsed (List (String × Value))
  | [] => .ok stored
  | s :: rest => do applyFlags ((← s.effect.apply []) ++ stored) rest

/-- What stands before a word: a positional argument that found its place, to which two dashes
behind it belong, the two dashes that make all words behind them positional, or neither. -/
inductive Neighbour where
  | argument | dashes | other
deriving DecidableEq, Repr

/-- The state of a parse: what is stored, the positional arguments so far, and whether a word
has found no place. -/
structure Parse where
  stored : List (String × Value) := []
  arguments : List (Option Text) := []
  strayed : Bool := false

namespace Grammar

def hasRoom (g : Grammar) (p : Parse) : Bool := p.arguments.length < g.positionals.length

/-- What a positional argument is worth. Of two dashes in a row the first are taken away, and
so are two dashes that stand alone. -/
def worth (near : Neighbour) (text : Text) : Option Text :=
  if text = "--" ∧ near ≠ .dashes then none else some text

/-- Goes through the words; `near` is what stands right before them. -/
def walk (g : Grammar) (p : Parse) (near : Neighbour) : List Word → Except Parsed Parse
  | [] => .ok p
  | .argument text :: rest =>
    if g.hasRoom p then
      walk g { p with arguments := p.arguments ++ [worth near text] } .argument rest
    else walk g { p with strayed := true } near rest
  | .dashes :: rest =>
    if near = .argument then walk g p near rest
    else walk g { p with strayed := p.strayed || !g.hasRoom p } .dashes rest
  | .unknown :: rest => walk g { p with strayed := true } .other rest
  | .wrong :: _ | .ambiguous :: _ => .error .misuse
  | .switches before last (some text) :: rest => do
    let stored ← applyFlags p.stored before
    walk g { p with stored := (← last.effect.applyJoined text) ++ stored } .other rest
  | .switches before last none :: rest =>
    if last.effect.takesArgument then
      match rest with
      | .argument text :: rest => do
        let stored ← applyFlags p.stored before
        walk g { p with stored := (← last.effect.apply text) ++ stored } .other rest
      | _ => .error .misuse
    else do walk g { p with stored := ← applyFlags p.stored (before ++ [last]) } .other rest

/-- The switches of a grammar that store a number, for which a default may be text. -/
def numberDests (g : Grammar) : List String :=
  g.switches.filterMap fun s => match s.effect with
    | .number dest => some dest
    | _ => none

/-- A default as the switch would store it: text for a number is read. -/
def convertDefault (g : Grammar) (entry : String × Value) : Option (String × Value) :=
  match entry with
  | (dest, .str text) =>
    if dest ∈ g.numberDests then (Text.readInt? text).map fun i => (dest, .int i)
    else some entry
  | _ => some entry

/-- Parses the words of a command line. Defaults stand for the switches that are not used. -/
def parse (g : Grammar) (defaults : List (String × Value)) (words : List Text) : Parsed :=
  let words := g.classifyAll words
  if words.contains .ambiguous then .misuse else
  match g.walk {} .other words with
  | .error ended => ended
  | .ok p =>
    if p.strayed || g.hasRoom p then .misuse
    else
      let unused := defaults.filter fun (dest, _) => !p.stored.any fun (used, _) => used = dest
      match unused.mapM g.convertDefault with
      | some defaults => .run p.stored defaults p.arguments
      | none => .misuse

end Grammar

end TreeDelta
