import TypedRecord.Schema.Integrity

namespace TypedRecord.Catalog

def offered (name : String) (type : FieldType) (description : String) : Field :=
  { Field.plain name type false with nullable := true, description := some description }

def demanded (name : String) (type : FieldType) (description : String) : Field :=
  { Field.plain name type true with description := some description }

def text : FieldType := .str {}

def listOf (items : FieldType) : FieldType := .seq items {}

def count : FieldType := .int { gte := some 0 }

def number : FieldType := .union [.num {}, .int {}]

def contextOptions : Schema where
  serial := 3
  name := "ContextOptions"
  description := some "Controls what chunk data is passed to the model as context."
  fields := [
    offered "include_links" .bool "Include chunk links in the context. Defaults to false."]

def llmOptions : Schema where
  serial := 5
  name := "LLMOptions"
  description := some "Parameters forwarded to the completion model."
  fields := [
    offered "completion_first" .bool "Stream the completion before the retrieved chunks.",
    offered "frequency_penalty" number "Frequency penalty.",
    offered "max_tokens" count "Maximum tokens to generate.",
    offered "presence_penalty" number "Presence penalty.",
    offered "stop_tokens" (.seq text { max := some 4 }) "Sequences that end generation.",
    offered "stream_response" .bool "Stream the response. Defaults to true.",
    offered "system_prompt" text "Overrides the dataset's system prompt.",
    offered "temperature" number "Sampling temperature."]

def searchMethods : List String := ["fulltext", "semantic", "hybrid", "bm25"]

def highlightStrategies : List String := ["exactmatch", "v1"]

def matchValue : FieldType := .union [text, .int {}, .num {}]

def range : Schema where
  serial := 0
  name := "Range"
  description := some "Numeric bounds a metadata value must fall within."
  fields := [
    offered "gt" number "Strictly greater than.",
    offered "gte" number "Greater than or equal to.",
    offered "lt" number "Strictly less than.",
    offered "lte" number "Less than or equal to."]

def fieldCondition : Schema where
  serial := 1
  name := "FieldCondition"
  description := some "A condition on one chunk field or metadata key."
  fields := [
    demanded "field" text "Field to filter on, e.g. `tag_set` or `metadata.key`.",
    offered "boolean" .bool "Match chunks whose boolean field has this value.",
    offered "match_all" (listOf matchValue) "Every value must be present on the chunk.",
    offered "match_any" (listOf matchValue) "At least one value must be present on the chunk.",
    offered "range" (.record range) "Numeric bounds for the field."]

def chunkFilter : Schema where
  serial := 2
  name := "ChunkFilter"
  description := some "Filters applied to chunks before scoring."
  fields := [
    offered "must" (listOf (.record fieldCondition)) "Every condition must match.",
    offered "must_not" (listOf (.record fieldCondition)) "No condition may match.",
    offered "should" (listOf (.record fieldCondition)) "At least one condition must match.",
    offered "jsonb_prefilter" .bool
      "Apply metadata conditions in the database before the vector search."]

def highlightOptions : Schema where
  serial := 4
  name := "HighlightOptions"
  description := some "How matching spans of each chunk are highlighted."
  fields := [
    offered "highlight_delimiters" (listOf text)
      "Characters that split chunk text into highlightable units.",
    offered "highlight_max_length" count "Maximum number of characters in one highlight.",
    offered "highlight_max_num" count "Maximum number of highlights per chunk.",
    offered "highlight_results" .bool "Whether to highlight results at all. Defaults to true.",
    offered "highlight_strategy" (.enum ⟨"HighlightStrategy", highlightStrategies⟩)
      "Highlighting algorithm.",
    offered "highlight_threshold" (.num { gte := some 0, lte := some 1 })
      "Similarity a span must reach to be highlighted.",
    offered "highlight_window" count "Words of surrounding text kept around each highlight.",
    offered "pre_tag" text "Markup inserted before each highlight.",
    offered "post_tag" text "Markup inserted after each highlight."]

def sortOptions : Schema where
  serial := 6
  name := "SortOptions"
  description := some "Re-ordering applied to retrieved chunks."
  fields := [
    offered "tag_weights" (.map (.num {})) "Score multipliers keyed by tag.",
    offered "use_weights" .bool "Apply each chunk's stored weight. Defaults to true."]

def createMessage : Schema where
  serial := 7
  name := "CreateMessageReqPayload"
  description := some "Request body for adding a user message to a topic and generating a reply."
  fields := [
    offered "audio_input" text "Base64 encoded audio of the user message.",
    offered "concat_user_messages_query" .bool
      "Search with all user messages of the topic concatenated. Defaults to false.",
    offered "context_options" (.record contextOptions) "What chunk data is passed to the model.",
    offered "filters" (.record chunkFilter) "Filters applied to the retrieval step.",
    offered "highlight_options" (.record highlightOptions) "How retrieved chunks are highlighted.",
    offered "image_urls" (listOf text) "URLs of images to attach to the message.",
    offered "llm_options" (.record llmOptions) "Parameters for the completion model.",
    offered "new_message_content" text "Content of the user message.",
    offered "no_result_message" text "Reply used when no chunk clears the score threshold.",
    offered "only_include_docs_used" .bool
      "Only return the chunks cited by the completion. Defaults to false.",
    offered "page_size" count "Chunks to fetch for retrieval. Zero skips the search.",
    offered "score_threshold" number "Chunks scoring below this are dropped before reranking.",
    offered "search_query" text "Query used for retrieval instead of the last user message.",
    offered "search_type" (.enum ⟨"SearchMethod", searchMethods⟩) "Retrieval method.",
    offered "sort_options" (.record sortOptions) "Re-ordering of retrieved chunks.",
    demanded "topic_id" text "ID of the topic to attach the message to.",
    offered "use_group_search" .bool "Search over groups instead of chunks. Defaults to false.",
    offered "user_id" text "ID of the requesting user, for analytics."]

def queryRating : Schema where
  serial := 8
  name := "SearchQueryRating"
  description := none
  fields := [
    offered "note" text "Free-form comment on the results.",
    demanded "rating" (.int {}) "Score given to the results."]

def all : List Schema :=
  [range, fieldCondition, chunkFilter, contextOptions, highlightOptions, llmOptions, sortOptions,
    createMessage, queryRating]

def find? (name : String) : Option Schema := all.find? (·.name = name)

def registry : Registry := ⟨all.length⟩

theorem error?_eq_none_of_mem_all : ∀ s ∈ all, s.error? = none := by
  decide +kernel

end TypedRecord.Catalog
