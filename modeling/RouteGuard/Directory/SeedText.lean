import RouteGuard.Directory.Seed
import RouteGuard.Toml.Reader
import RouteGuard.Toml.Shape

/-! # Seeds as text

A seed is written as a TOML document. An authority may carry further keys,
which do not count; roles, principals and the seed itself may not.
-/

namespace RouteGuard.Directory

open Toml (Value Fields optional?)

def Authority.ofToml? (v : Value) : Option Authority := do
  match (← Fields.of? v).values ["name", "url"] with
  | [some name, some url] => return ⟨← name.text?, ← url.text?⟩
  | _ => none

def SeedRole.ofToml? (v : Value) : Option SeedRole := do
  match ← (← Fields.of? v).exactly? ["name", "authorities"] with
  | [some name, authorities] =>
    return ⟨← name.text?, ← optional? [] (Value.listOf? Value.text?) authorities⟩
  | _ => none

def SeedPrincipal.ofToml? (v : Value) : Option SeedPrincipal := do
  match ← (← Fields.of? v).exactly? ["username", "roles"] with
  | [some username, roles] =>
    return ⟨← username.text?,
      ← optional? none (fun v => (v.listOf? Value.text?).map some) roles⟩
  | _ => none

def Seed.ofToml? (entries : Toml.Entries) : Option Seed := do
  match ← (Fields.byName entries).exactly? ["authorities", "roles", "principals"] with
  | [authorities, roles, principals] =>
    return {
      authorities := ← optional? [] (Value.listOf? Authority.ofToml?) authorities
      roles := ← optional? [] (Value.listOf? SeedRole.ofToml?) roles
      principals := ← optional? [] (Value.listOf? SeedPrincipal.ofToml?) principals }
  | _ => none

def Seed.read (s : String) : Except Failure Seed :=
  match (Toml.read? s).bind Seed.ofToml? with
  | none => .error (.malformedSeed "the text does not spell a seed")
  | some seed => seed.checked

end RouteGuard.Directory
