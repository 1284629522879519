import LoxSyntax.Reporter.Basic

/-! # Several reports

`Reporter.reportAll` is a reporter with some more diagnostics, reported one after the other. What a pass
does to its reporter is said with it, so that the diagnostics and the flag of the reporter are followed
at once. -/

namespace LoxSyntax.Reporter

/-- The reporter with the diagnostics behind its own, and the flag raised if there are any. -/
def reportAll (ds : List Diagnostic) (r : Reporter) : Reporter where
  diagnostics := r.diagnostics ++ ds.toArray
  hadError := r.hadError || !ds.isEmpty

variable {r : Reporter} {d : Diagnostic} {ds ds' : List Diagnostic}

@[simp] theorem reportAll_nil (r : Reporter) : r.reportAll [] = r := by
  simp [reportAll]

@[simp] theorem reportAll_cons (d : Diagnostic) (ds : List Diagnostic) (r : Reporter) :
    r.reportAll (d :: ds) = (r.report d).reportAll ds := by
  simp [reportAll, report]

theorem reportAll_singleton (d : Diagnostic) (r : Reporter) : r.reportAll [d] = r.report d := by
  simp

theorem reportAll_append (ds ds' : List Diagnostic) (r : Reporter) :
    r.reportAll (ds ++ ds') = (r.reportAll ds).reportAll ds' := by
  induction ds generalizing r with
  | nil => simp
  | cons d ds ih => simp [ih]

@[simp] theorem toList_diagnostics_reportAll (ds : List Diagnostic) (r : Reporter) :
    (r.reportAll ds).diagnostics.toList = r.diagnostics.toList ++ ds := by
  simp [reportAll]

/-- What has been reported can be read off the reporter. -/
theorem reportAll_injective (r : Reporter) : Function.Injective (reportAll · r) := by
  intro ds ds' h
  simpa using congrArg (·.diagnostics.toList) h

/-- Whatever is reported to an empty reporter, its flag tells whether it has diagnostics. -/
theorem hadError_reportAll_iff (ds : List Diagnostic) :
    (reportAll ds {}).hadError = true ↔ (reportAll ds {}).diagnostics.toList ≠ [] := by
  simp [reportAll]

@[simp] theorem since_size (r : Reporter) : r.since r.size = [] := by
  simp [since, size]

@[simp] theorem since_size_reportAll (ds : List Diagnostic) (r : Reporter) :
    (r.reportAll ds).since r.size = ds := by
  simp [since, size]

@[simp] theorem since_size_report (r : Reporter) (d : Diagnostic) :
    (r.report d).since r.size = [d] := by
  simp [since, size, report]

end LoxSyntax.Reporter
