import CellHive.Go.Strings

/-!
# Namespaces

Which namespaces the control plane accepts (`internal/control/store.go`), and which exact names a
bearer token can be for (`internal/bearertoken/namespace.go`).
-/

namespace CellHive.Control

open Go

def globalNamespace : Str := "__platform__".toList

def systemNamespace : Str := "__system__".toList

/-- `strings.ContainsAny(s, "/\\")` -/
def hasSeparator (s : Str) : Bool := s.contains '/' || s.contains '\\'

inductive NamespaceError
  | reserved
  | invalid (ns : Str)
deriving DecidableEq, Repr

def validateNS (ns : Str) : Except NamespaceError Unit :=
  if ns = [] ∨ ns = globalNamespace ∨ ns = systemNamespace then .error .reserved
  else if hasSeparator ns then .error (.invalid ns)
  else .ok ()

theorem validateNS_eq_ok {ns : Str} (h : validateNS ns = .ok ()) :
    ns ≠ [] ∧ hasSeparator ns = false := by
  unfold validateNS at h
  split at h
  · cases h
  split at h
  · cases h
  · next hreserved hsep => exact ⟨fun hnil => hreserved (.inl hnil), by simpa using hsep⟩

theorem slash_notMem {s : Str} (h : hasSeparator s = false) : '/' ∉ s := by
  simp only [hasSeparator, Bool.or_eq_false_iff] at h
  simpa using h.1

/-- The characters of a pattern. -/
def patternChar (c : Char) : Bool :=
  ('a' ≤ c && c ≤ 'z') || ('A' ≤ c && c ≤ 'Z') || ('0' ≤ c && c ≤ '9') || c = '_' || c = '-' ||
    c = '.'

def validatePattern (pattern : Str) : Bool :=
  pattern = ['*'] ||
    let s := trimSuffix pattern ['*']
    !(s = [] || s = ['.'] || ['_', '_'].isPrefixOf s || containsSub s ['.', '.']) &&
      s.all patternChar

def exact (ns : Str) : Bool := !containsSub ns ['*'] && validatePattern ns

end CellHive.Control
