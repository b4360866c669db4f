import RouteGuard.Proofs.Judgement
import RouteGuard.Proofs.Path.Canonical

/-! # Every request target

A request target has a canonical path unless its decoded bytes spell no text.
The path starts at the root and has ordinary segments alone. Nothing of it is
left to resolve, but decoding may have brought up marks that would be read if
the path were sent as a target itself.
-/

namespace RouteGuard.Path

open Text (joined)

/-- A path from the root. Each segment stands behind a slash and holds none; the
root has no segment. -/
def Rooted (path : String) : Prop :=
  ∃ segs, path.toList = '/' :: joined '/' segs ∧ ∀ seg ∈ segs, Ordinary seg ∧ '/' ∉ seg

/-- What a request target with this path part comes to. -/
structure Canonicalized (part : List Char) (target : String) : Prop where
  /-- bytes that spell no text are refused, and nothing else is -/
  refused : canonical? target = none ↔ ∀ cs, Text.encode cs ≠ percentDecode (Text.encode part)
  /-- the fault names the target as it was sent -/
  reported : ∀ (g : Guard) (sent : String),
    (g.matchTarget target).value.2 = .error (.invalidPath sent) ↔
      sent = target ∧ canonical? target = none
  rooted : ∀ path, canonical? target = some path → Rooted path
  /-- query and fragment do not bear on the path -/
  alike : ∀ other : String, IsPathPart part other.toList → canonical? other = canonical? target
  /-- a path without marks is its own canonical form -/
  settled : ∀ path, canonical? target = some path → (∀ c ∈ path.toList, c ∉ ['?', '#', '%']) →
    canonical? path = some path

variable {target path : String}

/-- A target has no path if its decoded bytes encode no text. -/
theorem canonical?_eq_none_iff : canonical? target = none ↔
    ∀ cs, Text.encode cs ≠ percentDecode (Text.encode (pathPart target.toList)) := by
  rw [canonical?_eq, Option.map_eq_none_iff]
  exact Text.decode?_eq_none_iff

/-- A guard reports an invalid path for such targets only. -/
theorem invalidPath_of_matchTarget (g : Guard) (target sent : String) :
    (g.matchTarget target).value.2 = .error (.invalidPath sent) ↔
      sent = target ∧ canonical? target = none := by
  rw [Guard.outcome_matchTarget]
  cases canonical? target with
  | none => simp [eq_comm]
  | some path => cases g.currentRules <;> simp

/-- Canonical paths are rooted. -/
theorem rooted_of_canonical (hpath : canonical? target = some path) : Rooted path := by
  rw [canonical?_eq] at hpath
  obtain ⟨cs, _, rfl⟩ := Option.map_eq_some_iff.mp hpath
  refine ⟨resolve (segments cs), by rw [String.toList_ofList, render_eq_rooted], ?_⟩
  intro seg hseg
  exact ⟨ordinary_of_mem_resolve hseg, Text.not_mem_of_mem_pieces ((resolve_sublist _).mem hseg)⟩

/-- A walk to a path from the root goes along the path. -/
theorem Rooted.render_resolve (hrooted : Rooted path) :
    render (resolve (segments path.toList)) = path.toList := by
  obtain ⟨segs, htext, hsegs⟩ := hrooted
  rw [htext, resolve_segments_cons, resolve_segments_joined fun seg hseg => (hsegs seg hseg).2,
    resolve_eq_self_iff.mpr fun seg hseg => (hsegs seg hseg).1, render_eq_rooted]

theorem Rooted.canonical?_self (hrooted : Rooted path)
    (hplain : ∀ c ∈ path.toList, c ∉ ['?', '#', '%']) : canonical? path = some path := by
  rw [canonical?_eq, decoded?_of_unmarked hplain, Option.map_some, hrooted.render_resolve,
    String.ofList_toList]

/-- Every request target that spells a text has a canonical path, told by what
comes before query and fragment, and every other one is refused. -/
theorem exists_canonicalized (target : String) :
    ∃ part, IsPathPart part target.toList ∧ Canonicalized part target := by
  refine ⟨pathPart target.toList, isPathPart_iff.mpr rfl, ?_⟩
  refine ⟨canonical?_eq_none_iff, fun g sent => invalidPath_of_matchTarget g target sent,
    fun _ => rooted_of_canonical, ?_, ?_⟩
  · intro other hpart
    rw [canonical?, canonical?, isPathPart_iff.mp hpart]
  · intro path hpath hplain
    exact (rooted_of_canonical hpath).canonical?_self hplain

/-- Decoding may bring up a mark. Such a path is not its own canonical form. -/
example : canonical? "/a/%2E%2e//b%3Fc/?q#f" = some "/b?c" ∧ canonical? "/b?c" = some "/b" := by
  decide +kernel

end RouteGuard.Path
