import ServiceBindings.Proofs.Json.Documents
import ServiceBindings.Proofs.Model.Loaded

/-! Models are loaded from the texts of their descriptions. -/
namespace ServiceBindings.ServiceModel

/-- The model that a description describes is loaded from its text. -/
theorem load_text {doc : Document} {model : ServiceModel} (h : doc.IsPlain)
    (hmodel : (Description.whole? (Json.treeOf doc)).map ofDescription = some (.ok model)) :
    load (Json.Node.ofDocument doc).text = .ok model := by
  obtain ⟨described, hwhole, hdescribed⟩ := Option.map_eq_some_iff.1 hmodel
  rw [load, Json.ofChars?_text h, Option.bind_some, hwhole]
  exact hdescribed

end ServiceBindings.ServiceModel
