import RouteGuard.Text.Pieces

/-! # Values from the environment

A settings text may refer to the environment: a dollar sign with a name in
braces stands for the value of that name. References that start after a hash
sign on the same line are left alone, and so is what a value itself contains.
-/

namespace RouteGuard.Settings

abbrev Environment := List (String × String)

namespace Environment

/-- The value of a name: what follows the name and an equals sign in the first
entry that starts so. -/
def value? (env : Environment) (name : String) : Option String :=
  let start := name.toList ++ ['=']
  env.findSome? fun (k, v) =>
    let entry := k.toList ++ '=' :: v.toList
    if start.isPrefixOf entry then some (String.ofList (entry.drop start.length)) else none

end Environment

/-- The rest of a text behind the first place where a reference may start. -/
def behindStart? : List Char → Option (List Char)
  | '$' :: '\x7b' :: rest => some rest
  | _ :: rest => behindStart? rest
  | [] => none

/-- All names that a text may refer to. -/
def namesIn (s : String) : List String :=
  ((Text.pieces '\x7d' s.toList).filterMap behindStart?).map String.ofList

structure Unset where
  name : String
  deriving DecidableEq, Repr

/-- The name in front of the first closing brace, and what follows the brace.
There is no reference without a name or without the brace. -/
def reference? (cs : List Char) : Option (List Char × List Char) :=
  match cs.takeWhile (· ≠ '\x7d'), cs.dropWhile (· ≠ '\x7d') with
  | [], _ => none
  | _, [] => none
  | name, _ :: rest => some (name, rest)

theorem length_lt_of_reference? {cs name rest : List Char}
    (h : reference? cs = some (name, rest)) : rest.length < cs.length := by
  have hsuffix := (List.dropWhile_suffix (l := cs) (· ≠ '\x7d')).length_le
  unfold reference? at h
  split at h
  · simp at h
  · simp at h
  · rename_i heq _
    simp only [Option.some.injEq, Prod.mk.injEq] at h
    rw [heq, List.length_cons, h.2] at hsuffix
    omega

/-- Puts values in place of the references of a line, from left to right. -/
def expandLine (env : Environment) : List Char → Except Unset (List Char)
  | [] => .ok []
  | '$' :: '\x7b' :: rest =>
    match h : reference? rest with
    | none => do return '$' :: '\x7b' :: (← expandLine env rest)
    | some (name, after) =>
      have := length_lt_of_reference? h
      match env.value? (String.ofList name) with
      | none => .error ⟨String.ofList name⟩
      | some value =>
        if name.contains '#' then .ok (value.toList ++ after)
        else do return value.toList ++ (← expandLine env after)
  | c :: rest => if c = '#' then .ok (c :: rest) else do return c :: (← expandLine env rest)
termination_by cs => cs.length
decreasing_by
  · simp only [List.length_cons]
    omega
  · simp only [List.length_cons]
    omega
  · simp

/-- The lines of a text; a carriage return at a line end belongs to the end. -/
def lines (cs : List Char) : List (List Char) :=
  let parts := Text.pieces '\n' cs
  parts.dropLast.map (fun line => if line.getLast? = some '\r' then line.dropLast else line) ++
    parts.drop (parts.length - 1)

/-- Puts values in place of the references of a text, line by line. -/
def expand (env : Environment) (s : String) : Except Unset String := do
  return String.ofList (Text.joined '\n' (← (lines s.toList).mapM (expandLine env)))

end RouteGuard.Settings
