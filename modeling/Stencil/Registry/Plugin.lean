import Stencil.Registry.Basic

/-!
# Plugins

A plugin changes a registry; plugins are applied in order, and several can be bundled under a name.
-/

namespace Stencil

/-- A function that could not be registered, and why. -/
structure Rejection where
  name : Text
  fault : RegistryFault

/-- A change of a registry. -/
abbrev Plugin := Registry → Except Rejection Registry

namespace Plugin

/-- Adds a function. -/
def adding (f : Registration) : Plugin := fun r =>
  match r.insert f with
  | .ok r => .ok r
  | .error fault => .error ⟨f.name, fault⟩

/-- Removes a function. -/
def removing (name : Text) : Plugin := fun r => .ok (r.erase name)

/-- Several changes, one after the other. -/
def all (plugins : List Plugin) : Plugin := fun r => plugins.foldlM (fun r p => p r) r

end Plugin

/-- Plugins bundled under a name. -/
structure PluginSet where
  name : Text
  plugins : List Plugin

/-- Applies the plugins of a set. -/
def PluginSet.attach (s : PluginSet) : Plugin := Plugin.all s.plugins

end Stencil
