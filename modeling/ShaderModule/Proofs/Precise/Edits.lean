import ShaderModule.Precise
import ShaderModule.Proofs.Program.Step

/-!
# Marking and sweeping as edits

Tags and marker calls are put in and taken out by the edits that change any program. Only the sweep
erases functions.
-/

namespace ShaderModule

open Program

namespace Precise

variable {kept : Handle .function → Prop} {R : Program → Program → Prop} [Std.Refl R] [IsTrans Program R]

theorem growing_tagNode : Build.Growing tagNode :=
  .bind (Build.growing_int _ _) fun _ => .bind (Build.growing_node _) fun _ => Build.growing_node _

theorem edits_tagInst (h : Handle .inst) : Along (Edits kept) (tagInst h) :=
  .bind (edits_build growing_tagNode) fun _ => edits_setInstMetadata h tag _

/-- Tagging a marker enters nodes and attaches one to a function. -/
theorem along_tagMarker (hnode : ∀ n p, R p (Build.node n p).2)
    (hattach : ∀ f kind node, Along R (setFunctionMetadata f kind node)) (marker : Handle .function) :
    Along R (tagMarker marker) := by
  refine .bind .get fun p => ?_
  split
  · exact .bind (hnode _) fun kind => .bind (hnode _) fun node => hattach _ _ _
  · exact .pure _

theorem edits_tagMarker (marker : Handle .function) : Along (Edits kept) (tagMarker marker) :=
  along_tagMarker (fun n p => (Build.growing_node n p).edits) edits_setFunctionMetadata marker

theorem edits_marker (type : Handle .type) : Along (Edits kept) (marker type) := by
  refine .bind .get fun p => ?_
  split
  · refine .bind (edits_build (Build.growing_type _)) fun void => ?_
    refine .bind (edits_build (Build.growing_type _)) fun signature => ?_
    refine .adaptExcept (.bind (edits_ensureFunction _ _) fun f => ?_)
    exact .bind (edits_tagMarker f) fun _ => .pure _
  · exact .throw _

/-- The calls of a marker on what it marks, which has the given type. -/
def callsOn (ptr : Value) (T : Handle .type) (m : Handle .function) : Edit ShaderError (List (Handle .inst)) := do
  let call := InstKind.call m [ptr]
  match ptr with
  | .inst slot => return [← Program.lift (insertAfter slot call)]
  | .argument function _ => return [← Program.lift (insertAt function 0 call)]
  | .global _ => Program.lift ((storingFunctions (← get) ptr).mapM fun f => insertAt f 0 call)
  | .function _ | .constant _ => throw (.notAPointer ((← get).typeText T))

theorem markPointer_eq_bind (ptr : Value) :
    markPointer ptr = Program.lift (valueType ptr) >>= fun T => marker T >>= callsOn ptr T := rfl

theorem along_callsOn (hat : ∀ f pos callee args, Along R (insertAt f pos (.call callee args)))
    (hafter : ∀ anchor callee args, Along R (insertAfter anchor (.call callee args))) (ptr : Value)
    (T : Handle .type) (m : Handle .function) : Along R (callsOn ptr T m) := by
  cases ptr with
  | inst slot => exact .bind (.adaptExcept (hafter _ _ _)) fun _ => .pure _
  | argument function index => exact .bind (.adaptExcept (hat _ _ _ _)) fun _ => .pure _
  | global h => exact .bind .get fun p => .adaptExcept (.mapM (fun f => hat _ _ _ _) _)
  | function h => exact .bind .get fun p => .throw _
  | constant h => exact .bind .get fun p => .throw _

theorem edits_callsOn (ptr : Value) (T : Handle .type) (m : Handle .function) :
    Along (Edits kept) (callsOn ptr T m) :=
  along_callsOn (fun _ _ _ _ => edits_insertAt _ _ _) (fun _ _ _ => edits_insertAfter _ _) ptr T m

theorem edits_markPointer (ptr : Value) : Along (Edits kept) (markPointer ptr) := by
  rw [markPointer_eq_bind]
  refine .bind (.adaptExcept (edits_of_grows (grows_valueType ptr))) fun type => ?_
  exact .bind (edits_marker type) fun callee => edits_callsOn ptr type callee

/-! ## Sweeping -/

theorem along_dropMarker {f : Handle .function} (herase : Along R (Program.eraseFunction f)) :
    Along R (dropMarker f) := by
  refine .bind .get fun p => ?_
  split
  · exact .discard herase
  · exact .pure _

section

variable (htype : ∀ v, Along R (valueType v)) (htag : ∀ h, Along R (tagInst h))
  (heraseInst : ∀ h, Along R (Program.eraseInst h))

include htype htag heraseInst

theorem along_convertCall (call : Handle .inst) (arg : Option Value) : Along R (convertCall call arg) := by
  have hconvert : ∀ hs : List (Handle .inst), Along R (do hs.forM tagInst; discard (Program.eraseInst call)) :=
    fun hs => .bind (.forM htag hs) fun _ => .discard (heraseInst call)
  cases arg with
  | none => exact .bind (.pure _) hconvert
  | some v => exact .bind (.bind (htype v) fun _ => .bind .get fun _ => .pure _) hconvert

/-- The sweep works out types, tags instructions and erases instructions and functions. -/
theorem along_sweep (heraseFunction : ∀ f, Along R (Program.eraseFunction f)) : Along R sweep := by
  have hconvert : ∀ x : Handle .inst × Option Value, Along R (convertCall x.1 x.2) := fun x =>
    along_convertCall htype htag heraseInst x.1 x.2
  refine .bind .get fun p => .bind (.forM hconvert _) fun _ => ?_
  exact .bind (.forM (fun f => along_dropMarker (heraseFunction f)) _) fun _ => .pure _

end

theorem edits_dropMarker (f : Handle .function) : Along (Edits fun _ => False) (dropMarker f) :=
  along_dropMarker (edits_eraseFunction id)

/-- The sweep may erase functions. -/
theorem edits_sweep : Along (Edits fun _ => False) sweep :=
  along_sweep (fun v => edits_of_grows (grows_valueType v)) edits_tagInst edits_eraseInst
    fun _ => edits_eraseFunction id

end Precise

end ShaderModule
