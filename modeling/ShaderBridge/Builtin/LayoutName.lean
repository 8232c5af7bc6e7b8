namespace ShaderBridge.LayoutName

/-- Names that are written `name = value`. -/
def valued : List String :=
  ["location", "component", "index", "binding", "set", "offset", "align",
    "input_attachment_index", "constant_id", "xfb_buffer", "xfb_offset", "xfb_stride",
    "local_size_x", "local_size_y", "local_size_z", "local_size_x_id", "local_size_y_id",
    "local_size_z_id", "max_vertices", "invocations", "stream", "vertices", "max_primitives"]

/-- Names that stand alone: packing of blocks, primitives, tests, and image formats. -/
def bare : List String :=
  ["shared", "packed", "std140", "std430", "scalar", "row_major", "column_major",
    "push_constant", "shaderRecordEXT", "points", "lines", "lines_adjacency", "triangles",
    "triangles_adjacency", "line_strip", "triangle_strip", "quads", "isolines",
    "equal_spacing", "fractional_even_spacing", "fractional_odd_spacing", "cw", "ccw",
    "point_mode", "origin_upper_left", "pixel_center_integer", "early_fragment_tests",
    "depth_any", "depth_greater", "depth_less", "depth_unchanged",
    "rgba32f", "rgba16f", "rg32f", "rg16f", "r11f_g11f_b10f", "r32f", "r16f", "rgba16",
    "rgb10_a2", "rgba8", "rg16", "rg8", "r16", "r8", "rgba16_snorm", "rgba8_snorm",
    "rg16_snorm", "rg8_snorm", "r16_snorm", "r8_snorm", "rgba32i", "rgba16i", "rgba8i",
    "rg32i", "rg16i", "rg8i", "r32i", "r16i", "r8i", "rgba32ui", "rgba16ui", "rgb10_a2ui",
    "rgba8ui", "rg32ui", "rg16ui", "rg8ui", "r32ui", "r16ui", "r8ui", "r64ui", "r64i"]

/-- Whether a layout name takes a value; `none` for a name that is not known. -/
def takesValue? (name : String) : Option Bool :=
  if valued.contains name then some true
  else if bare.contains name then some false
  else none

end ShaderBridge.LayoutName
